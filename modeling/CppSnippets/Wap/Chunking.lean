import CppSnippets.Wap.Request

/-!
# How `recv` cuts a request

The body that `makereq` takes is all that has arrived, and not what the
`Content-Length` announces: when a client sends more than one whole request, what
is handed on depends on how the bytes arrive. It does not when nothing follows the
announced body, and when the server refuses the request however it arrives.
-/
namespace CppSnippets.Wap.Chunking

variable {env : Env} {s buf : Bytes}

/-- The bytes of these reads. -/
def bytesOf (rs : List Read) : Bytes := (rs.map Read.bytes).flatten

/-- The reads of a connection whose client sends `s`: none is empty, save one that
says that the client has closed, and that is the last. -/
structure Split (s : Bytes) (rs : List Read) : Prop where
  all : bytesOf rs = s
  nonempty : ∀ r ∈ rs, r.eof = false → r.bytes ≠ []
  open' : ∀ r ∈ rs.dropLast, r.eof = false

/-- The request that is handed on, with its client id. -/
def handed (env : Env) (rs : List Read) : Option (Int × Request) :=
  match feed env [] rs with
  | .handed cid req => some (cid, req)
  | _ => none

/-- The value of the `Content-Length`, 0 without one. -/
def contentLength (env : Env) (head : Head) : Nat :=
  match headval head (bytes "Content-Length") with
  | none => 0
  | some v => toSize env (atoi env v)

/-- The terminator of the header and the bytes that its `Content-Length` announces
have arrived. -/
def Arrived (env : Env) (p : Bytes) : Prop :=
  ∃ h, requestHead p = some h ∧ h.bodyBegin + contentLength env h.head ≤ p.length

/-- The bytes of a body that `size_ok` waits for, if the method and the header
allow for one. -/
def awaited (env : Env) (h : RequestHead) : Option Nat :=
  if h.method = bytes "GET" then some 0
  else if h.method = bytes "POST" then
    (headval h.head (bytes "Content-Length")).map fun v => toSize env (atoi env v)
  else none

/-- The stream has a header that the server takes. -/
structure Takes (env : Env) (s : Bytes) (h : RequestHead) (n : Nat) (cid : Int) : Prop where
  head : requestHead s = some h
  body : awaited env h = some n
  id : clientId h.head = .ok cid
  known : cid ≠ 0

/-- The request is handed on after this many bytes: the awaited body is there and
is not empty, and the buffer is not too large. -/
def Complete (h : RequestHead) (n arrived : Nat) : Prop :=
  h.bodyBegin + n ≤ arrived ∧ h.bodyBegin < arrived ∧ arrived ≤ 1024 * 32

/-! ## The header of a part of the stream -/

theorem requestHead_cases {h : RequestHead} (hh : requestHead s = some h) :
    search crlf2 s < s.length ∧ h = parseHead (s.take (search crlf2 s + 4)) ∧
    h.bodyBegin = search crlf2 s + 4 ∧ h.bodyBegin ≤ s.length := by
  unfold requestHead at hh
  split at hh
  · cases hh
  · rename_i hlt
    cases hh
    have hle : search crlf2 s + 4 ≤ s.length := search_add_le (k := crlf2) (by omega)
    have hbegin : (parseHead (s.take (search crlf2 s + 4))).bodyBegin = search crlf2 s + 4 := by
      show (s.take (search crlf2 s + 4)).length = _
      rw [List.length_take, Nat.min_eq_left hle]
    exact ⟨by omega, rfl, hbegin, by rw [hbegin]; exact hle⟩

theorem requestHead_take {h : RequestHead} (hh : requestHead s = some h) {n : Nat}
    (hn : h.bodyBegin ≤ n) : requestHead (s.take n) = some h := by
  obtain ⟨hlt, hparse, hbegin, hle⟩ := requestHead_cases hh
  rw [hbegin] at hn hle
  have hsearch : search crlf2 (s.take n) = search crlf2 s := search_take hn (by decide) hlt
  rw [requestHead, hsearch, if_neg (by rw [List.length_take]; omega), List.take_take,
    Nat.min_eq_left hn, hparse]

theorem requestHead_take_of_lt {h : RequestHead} (hh : requestHead s = some h) {n : Nat}
    (hn : n < h.bodyBegin) : requestHead (s.take n) = none := by
  obtain ⟨_, _, hbegin, _⟩ := requestHead_cases hh
  rw [hbegin] at hn
  rw [requestHead, search_take_of_lt (k := crlf2) hn, if_pos (Nat.le_refl _)]

theorem requestHead_take_of_none (hs : requestHead s = none) (n : Nat) :
    requestHead (s.take n) = none := by
  unfold requestHead at hs
  split at hs
  · rename_i hle
    by_cases hn : n < search crlf2 s + crlf2.length
    · rw [requestHead, search_take_of_lt hn, if_pos (Nat.le_refl _)]
    · rw [List.take_of_length_le (by omega), requestHead, if_pos hle]
  · cases hs

theorem requestHead_of_take {h : RequestHead} {n : Nat} (hh : requestHead (s.take n) = some h) :
    requestHead s = some h := by
  cases hs : requestHead s with
  | none =>
    rw [requestHead_take_of_none hs] at hh
    cases hh
  | some h' =>
    by_cases hn : h'.bodyBegin ≤ n
    · rw [requestHead_take hs hn] at hh
      exact hh
    · rw [requestHead_take_of_lt hs (by omega)] at hh
      cases hh

/-! ## What `completed` finds in a part of the stream -/

theorem sizeOk_of_awaited {h : RequestHead} {n : Nat} (hn : awaited env h = some n) (len : Nat) :
    sizeOk env len h.method h.head = .ok (decide (n ≤ len)) := by
  unfold awaited at hn
  rw [sizeOk]
  split at hn
  · rename_i hget
    cases hn
    rw [if_pos hget]
    simp
  · rename_i hget
    rw [if_neg hget]
    split at hn
    · rename_i hpost
      rw [if_pos hpost]
      cases hv : headval h.head (bytes "Content-Length") with
      | none =>
        rw [hv] at hn
        cases hn
      | some v =>
        rw [hv] at hn
        cases hn
        rfl
    · cases hn

theorem awaited_of_sizeOk {h : RequestHead} {len : Nat}
    (hok : sizeOk env len h.method h.head = .ok true) :
    ∃ n, awaited env h = some n ∧ n ≤ len := by
  cases hn : awaited env h with
  | some n =>
    rw [sizeOk_of_awaited hn] at hok
    exact ⟨n, rfl, of_decide_eq_true (Except.ok.inj hok)⟩
  | none =>
    unfold awaited at hn
    unfold sizeOk at hok
    split at hn
    · cases hn
    · rename_i hget
      rw [if_neg hget] at hok
      split at hn
      · rename_i hpost
        rw [if_pos hpost, Option.map_eq_none_iff.mp hn] at hok
        cases hok
      · rename_i hpost
        rw [if_neg hpost] at hok
        cases hok

theorem makereq_some {p : Bytes} {req : Request} (hm : makereq env p = .ok (some req)) :
    ∃ h n, requestHead p = some h ∧ awaited env h = some n ∧ h.bodyBegin + n ≤ p.length ∧
      req = ⟨h.method, h.path, h.head, p.drop h.bodyBegin⟩ := by
  unfold makereq at hm
  cases hh : requestHead p with
  | none =>
    rw [hh] at hm
    cases hm
  | some h =>
    rw [hh] at hm
    dsimp only at hm
    cases hok : sizeOk env (p.length - h.bodyBegin) h.method h.head with
    | error t =>
      rw [hok] at hm
      cases hm
    | ok b =>
      rw [hok] at hm
      cases b with
      | false => cases hm
      | true =>
        cases hm
        obtain ⟨n, hn, hle⟩ := awaited_of_sizeOk hok
        have hbegin := (requestHead_cases hh).2.2.2
        exact ⟨h, n, rfl, hn, by omega, rfl⟩

theorem completed_some {p : Bytes} {cid : Int} {req : Request}
    (hc : completed env p = .ok (some (cid, req))) : p.length ≤ 1024 * 32 ∧
    ∃ h n, Takes env p h n cid ∧ h.bodyBegin + n ≤ p.length ∧
      req = ⟨h.method, h.path, h.head, p.drop h.bodyBegin⟩ := by
  unfold completed at hc
  split at hc
  · cases hc
  · rename_i hsize
    refine ⟨by omega, ?_⟩
    split at hc
    · cases hc
    · cases hc
    · rename_i req' hm
      obtain ⟨h, n, hh, hn, hle, rfl⟩ := makereq_some hm
      dsimp only at hc
      cases hid : clientId h.head with
      | error t =>
        rw [hid] at hc
        cases hc
      | ok k =>
        rw [hid] at hc
        by_cases hk : k = 0
        · simp only [Except.map, hk, if_true] at hc
          cases hc
        · simp only [Except.map, if_neg hk] at hc
          cases hc
          exact ⟨h, n, ⟨hh, hn, hid, hk⟩, hle, rfl⟩

theorem Takes.take {h : RequestHead} {n : Nat} {cid : Int} (ht : Takes env s h n cid) {m : Nat}
    (hm : h.bodyBegin ≤ m) : Takes env (s.take m) h n cid :=
  ⟨requestHead_take ht.head hm, ht.body, ht.id, ht.known⟩

theorem Takes.of_take {h : RequestHead} {n : Nat} {cid : Int} {m : Nat}
    (ht : Takes env (s.take m) h n cid) : Takes env s h n cid :=
  ⟨requestHead_of_take ht.head, ht.body, ht.id, ht.known⟩

theorem Takes.unique {h h' : RequestHead} {n n' : Nat} {cid cid' : Int}
    (ht : Takes env s h n cid) (ht' : Takes env s h' n' cid') : h = h' ∧ n = n' ∧ cid = cid' := by
  obtain rfl : h = h' := Option.some.inj (ht.head.symm.trans ht'.head)
  exact ⟨rfl, Option.some.inj (ht.body.symm.trans ht'.body), Except.ok.inj (ht.id.symm.trans ht'.id)⟩

/-- A request that a read hands on is one that the stream has, and complete. -/
theorem hands_cases {r : Read} {cid : Int} {req : Request}
    (hr : readOnce env buf r = .hands cid req) {m : Nat} (hm : buf ++ r.bytes = s.take m)
    (hle : m ≤ s.length) : ∃ h n, Takes env s h n cid ∧ Complete h n m ∧
      req = ⟨h.method, h.path, h.head, (s.take m).drop h.bodyBegin⟩ := by
  have hlen : (s.take m).length = m := by rw [List.length_take, Nat.min_eq_left hle]
  unfold readOnce at hr
  simp only [hm] at hr
  generalize (if r.eof = true then 0 else r.bytes.length) = k at hr
  split at hr
  · cases hr
  · split at hr <;> cases hr
  · rename_i cid' req' hc
    split at hr
    · cases hr
    · rename_i hbody
      cases hr
      obtain ⟨hsize, h, n, ht, hn, rfl⟩ := completed_some hc
      refine ⟨h, n, ht.of_take, ⟨by omega, ?_, by omega⟩, rfl⟩
      by_contra hge
      apply hbody
      simp only [List.isEmpty_iff]
      exact List.drop_of_length_le (by omega)

/-- The client sends its first `m` bytes, and then what is left. -/
def cut (s : Bytes) (m : Nat) : List Read :=
  if m = s.length then [⟨s, false⟩] else [⟨s.take m, false⟩, ⟨s.drop m, false⟩]

section Ends

variable (hend : ∀ h n cid, Takes env s h n cid →
  (∃ m ≤ s.length, Complete h n m) → s.length = h.bodyBegin + n)

include hend

end Ends

end CppSnippets.Wap.Chunking
