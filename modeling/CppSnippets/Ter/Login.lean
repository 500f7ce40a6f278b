import CppSnippets.Lib.Header
import CppSnippets.Ter.Http

/-!
# When the way an answer is cut makes no difference

The length is looked for in all that has arrived, the body included, at a place that
need not have arrived, and it may be negative. So the reads decide what comes of an
answer without the name in its header, and of one with no number where it is looked for.
Where there is one, it stays the same however much of the body is there; whether it is
the number of the field is another matter.
-/
namespace CppSnippets.Ter.Http

open CppSnippets.Lib
open CppSnippets.Ter.Framing (Ptree)
open CppSnippets.Wap (Byte Bytes Env bytes isspace atoi slice search_le prefix_at_search)

/-- What the `Content-Length` line of a header announces. -/
def contentLength (head : Bytes) : Option Nat := Header.length lengthName (Header.lines head)

/-- The end of the header and as many bytes as its field says have arrived, and the
body has this token. -/
def Arrived (decode : Bytes → Option Ptree) (p tok : Bytes) : Prop :=
  ∃ eoh n : Nat, findFirst endOfHead p = some eoh ∧ contentLength (p.take eoh) = some n ∧
    eoh + n ≤ p.length ∧ answer decode (slice p eoh (eoh + n)) = .token tok

/-- What the reads of an answer `s` lead to, at its end and at any time before. -/
structure Sound (env : Env) (decode : Bytes → Option Ptree) (s : Bytes) : Prop where
  same : ∀ {rs rs'}, Reads s rs → Reads s rs' →
    readResponse env decode rs = readResponse env decode rs'
  timely : ∀ {p rs tok}, p <+: s → Reads p rs →
    (readResponse env decode rs = some (.token tok) ↔ Arrived decode p tok)
  inside : ∀ {p rs}, p <+: s → Reads p rs → readResponse env decode rs ≠ some .undefined

/-- The number that stands two characters behind the name, in a header. -/
def lengthAt (env : Env) (head : Bytes) : Option Int :=
  (ifindFirst lengthName head).map fun cl => atoi env (head.drop (cl + 2))

/-- A header without the name has no name in the 63 bytes behind it. The number in a
header with the name is not negative; and if nothing but spaces is there, no part of
those 63 bytes begins with a number other than 0. -/
def LengthStays (env : Env) (head body : Bytes) : Prop :=
  match ifindFirst lengthName head with
  | none => ifindFirst lengthName (body.take 63) = none
  | some cl =>
    0 ≤ atoi env (head.drop (cl + 2)) ∧
    ((head.drop (cl + 2)).all isspace = true → ∀ b, b <+: body.take 63 → atoi env b = 0)

/-- The number is that of the field, unless both are more than there is of the body. -/
def ReadsField (env : Env) (head body : Bytes) : Prop :=
  ∀ n : Nat, n ≤ body.length → (lengthAt env head = some (n : Int) ↔ contentLength head = some n)

/-- The length is what the field says, and stays so. -/
def Steady (env : Env) (s : Bytes) : Prop :=
  ∀ eoh, findFirst endOfHead s = some eoh →
    LengthStays env (s.take eoh) (s.drop eoh) ∧ ReadsField env (s.take eoh) (s.drop eoh)

variable {env : Env} {decode : Bytes → Option Ptree} {head body b p s : Bytes} {rs : List Bytes}
  {cl : Nat}

/-! ## One look at the buffer -/

theorem head_ends (hhead : findFirst endOfHead head = some head.length) :
    ∃ lines, head = lines ++ endOfHead := by
  obtain ⟨hlt, hlen⟩ := findFirst_eq_some.mp hhead
  have hpre := prefix_at_search hlt
  have hdrop := hpre.eq_of_length (by rw [List.length_drop]; omega)
  exact ⟨_, ((congrArg _ hdrop).trans (List.take_append_drop _ _)).symm⟩

theorem endOfHead_last (lines : Bytes) : lines ++ endOfHead = lines ++ [13, 10, 13] ++ [10] := by
  rw [List.append_assoc]
  rfl

theorem length_lines (lines : Bytes) : (lines ++ endOfHead).length = lines.length + 4 :=
  List.length_append

/-- The name has no end of a line. -/
theorem not_mem_name {c : Byte} (h : c ∈ endOfHead.map toupper) : c ∉ lengthName.map toupper := by
  have hends : endOfHead.map toupper = [13, 10, 13, 10] := rfl
  have hname : 13 ∉ lengthName.map toupper ∧ 10 ∉ lengthName.map toupper := by decide
  simp only [hends, List.mem_cons, List.not_mem_nil, or_false] at h
  obtain rfl | rfl | rfl | rfl := h
  · exact hname.1
  · exact hname.2
  · exact hname.1
  · exact hname.2

theorem ifindFirst_append (h : ifindFirst lengthName head = some cl) (b : Bytes) :
    ifindFirst lengthName (head ++ b) = some cl := by
  rw [ifindFirst, List.map_append]
  exact findFirst_append (by decide) h _

theorem ifindFirst_behind (hhead : findFirst endOfHead head = some head.length)
    (h : ifindFirst lengthName head = none) (b : Bytes) :
    ifindFirst lengthName (head ++ b) = (ifindFirst lengthName b).map (head.length + ·) := by
  obtain ⟨lines, rfl⟩ := head_ends hhead
  have hline : (lines ++ endOfHead).map toupper = (lines ++ [13, 10, 13]).map toupper ++ [10] := by
    rw [endOfHead_last, List.map_append]
    rfl
  rw [ifindFirst, hline] at h
  have hbehind := findFirst_behind (c := 10) (by decide) h (b.map toupper)
  rw [← hline, ← List.map_append, List.length_map] at hbehind
  exact hbehind

/-- The line with the name goes on behind it. -/
theorem text_ends (hhead : findFirst endOfHead head = some head.length)
    (h : ifindFirst lengthName head = some cl) :
    cl + 2 ≤ head.length ∧ ∃ t, head.drop (cl + 2) = t ++ [10] := by
  obtain ⟨lines, rfl⟩ := head_ends hhead
  rw [ifindFirst, List.map_append] at h
  have hle := findFirst_le_left (by decide) (fun _ => not_mem_name) h
  rw [List.length_map] at hle
  have hlen := length_lines lines
  refine ⟨by omega, (lines ++ [13, 10, 13]).drop (cl + 2), ?_⟩
  have hcut : (lines ++ [13, 10, 13]).length = lines.length + 3 := List.length_append
  rw [endOfHead_last, List.drop_append_of_le_length (by omega)]

/-- What becomes of `b` behind the header when the length is `clen`. -/
def finish (decode : Bytes → Option Ptree) (clen : Int) (b : Bytes) : Option Answer :=
  if b.length < clen then none
  else if clen < 0 then some .undefined
  else some (answer decode (b.take clen.toNat))

theorem parse_named (hhead : findFirst endOfHead head = some head.length)
    (h : ifindFirst lengthName head = some cl) (b : Bytes) :
    parseResponseData env decode (head ++ b) =
      finish decode (atoi env (head.drop (cl + 2) ++ b)) b := by
  have hle := (text_ends hhead h).1
  simp only [parseResponseData, findFirst_append (by decide) hhead, ifindFirst_append h]
  rw [if_neg (by rw [List.length_append]; omega), List.drop_append_of_le_length hle]
  simp only [finish, List.length_append, Nat.cast_add, slice, List.drop_left, Nat.add_sub_cancel_left,
    add_lt_add_iff_left]

theorem parse_unnamed (hhead : findFirst endOfHead head = some head.length)
    (h : ifindFirst lengthName head = none) (hb : ifindFirst lengthName b = none) :
    parseResponseData env decode (head ++ b) = some .failed := by
  simp only [parseResponseData, findFirst_append (by decide) hhead, ifindFirst_behind hhead h, hb,
    Option.map_none]

/-- A buffer that ends with the name. -/
theorem parse_cut (hhead : findFirst endOfHead head = some head.length)
    (h : ifindFirst lengthName head = none) (hb : ifindFirst lengthName b = some b.length) :
    parseResponseData env decode (head ++ b) = some .undefined := by
  simp only [parseResponseData, findFirst_append (by decide) hhead, ifindFirst_behind hhead h, hb,
    Option.map_some]
  rw [if_pos (by rw [List.length_append]; omega)]

theorem parse_waits (h : findFirst endOfHead s = none) : parseResponseData env decode s = none := by
  rw [parseResponseData, h]

/-! ## All reads of a steady answer -/

theorem finish_zero (b : Bytes) : finish decode 0 b = some (answer decode []) := by
  rw [finish, if_neg (by omega), if_neg (by decide)]
  rfl

theorem finish_append {n : Int} {o : Answer} (hn : 0 ≤ n) (h : finish decode n b = some o)
    (t : Bytes) : finish decode n (b ++ t) = some o := by
  have hlen : (b ++ t).length = b.length + t.length := List.length_append
  have hge : ¬n < 0 := by omega
  unfold finish at h ⊢
  split at h
  · cases h
  · rename_i hle
    rw [if_neg (by omega), if_neg hge, List.take_append_of_le_length (by omega)]
    exact h

/-- What is made of the first bytes `p`, when the length is that of the header. -/
def settle (env : Env) (decode : Bytes → Option Ptree) (head p : Bytes) : Option Answer :=
  if p.length < head.length then none
  else
    match lengthAt env head with
    | none => some .failed
    | some n => finish decode n (p.drop head.length)

theorem settle_head (b : Bytes) : settle env decode head (head ++ b) =
    match lengthAt env head with
    | none => some .failed
    | some n => finish decode n b := by
  rw [settle, if_neg (by rw [List.length_append]; omega), List.drop_left]

theorem waits_before (hhead : findFirst endOfHead head = some head.length) (hp : p <+: head)
    (hlt : p.length < head.length) : findFirst endOfHead p = none := by
  rw [List.prefix_iff_eq_take.mp hp]
  exact findFirst_take hhead hlt

theorem length_nonneg (hstays : LengthStays env head body) {n : Int}
    (hn : lengthAt env head = some n) : 0 ≤ n := by
  rw [lengthAt, Option.map_eq_some_iff] at hn
  obtain ⟨cl, hcl, rfl⟩ := hn
  rw [LengthStays, hcl] at hstays
  exact hstays.1

/-- A look at the buffer before anything is settled finds what the header says. -/
theorem parse_settle (hhead : findFirst endOfHead head = some head.length)
    (hstays : LengthStays env head body) {b : Bytes} (hb : b <+: body) {p c : Bytes}
    (hp : p ++ c = head ++ b) (hc : c.length ≤ 64) (hnone : settle env decode head p = none) :
    parseResponseData env decode (head ++ b) = settle env decode head (head ++ b) := by
  have hnear (hlt : p.length < head.length) : b <+: body.take 63 := by
    have hlen := congrArg List.length hp
    rw [List.length_append, List.length_append] at hlen
    exact List.prefix_take_iff.mpr ⟨hb, by omega⟩
  have hshort (h : ∃ o, (match lengthAt env head with
      | none => some .failed
      | some n => finish decode n (p.drop head.length)) = some o) : p.length < head.length := by
    by_contra hge
    rw [settle, if_neg hge] at hnone
    rw [hnone] at h
    exact nomatch h.choose_spec
  rw [settle_head]
  cases hcl : ifindFirst lengthName head with
  | none =>
    have hlength : lengthAt env head = none := by rw [lengthAt, hcl, Option.map_none]
    rw [LengthStays, hcl] at hstays
    rw [hlength] at hshort ⊢
    refine parse_unnamed hhead hcl (Option.eq_none_iff_forall_ne_some.mpr fun e he => ?_)
    obtain ⟨t, ht⟩ := hnear (hshort ⟨_, rfl⟩)
    have hmore := ifindFirst_append he t
    rw [ht, hstays] at hmore
    cases hmore
  | some cl =>
    have hlength : lengthAt env head = some (atoi env (head.drop (cl + 2))) := by
      rw [lengthAt, hcl, Option.map_some]
    rw [LengthStays, hcl] at hstays
    rw [hlength] at hshort ⊢
    rw [parse_named hhead hcl]
    by_cases hblank : (head.drop (cl + 2)).all isspace = true
    · have hzero : atoi env (head.drop (cl + 2)) = 0 := by
        rw [← List.append_nil (head.drop (cl + 2)), atoi_blank hblank, atoi_nil]
      have hlt := hshort ⟨answer decode [], by rw [hzero]; exact finish_zero _⟩
      rw [atoi_blank hblank, hstays.2 hblank b (hnear hlt), hzero]
    · obtain ⟨t, ht⟩ := (text_ends hhead hcl).2
      rw [ht] at hblank ⊢
      rw [atoi_append hblank]

theorem readResponse_settle (hhead : findFirst endOfHead head = some head.length)
    (hstays : LengthStays env head body) (hp : p <+: head ++ body) (hrs : Reads p rs) :
    readResponse env decode rs = settle env decode head p := by
  have hpos : 0 < head.length := by
    obtain ⟨lines, rfl⟩ := head_ends hhead
    rw [length_lines]
    exact Nat.succ_pos _
  obtain ⟨rfl, hsize⟩ := hrs
  refine gather_eq (by rw [settle, List.length_nil, if_pos hpos]) ?_ ?_ hsize hp
  · intro p q o ho
    unfold settle at ho ⊢
    split at ho
    · cases ho
    · rename_i hge
      rw [if_neg (by rw [List.length_append]; omega)]
      cases hn : lengthAt env head with
      | none => rwa [hn] at ho
      | some n =>
        rw [hn] at ho
        rw [List.drop_append_of_le_length (by omega)]
        exact finish_append (length_nonneg hstays hn) ho q
  · intro p c hc hpre hnone
    by_cases hlt : (p ++ c).length < head.length
    · have hbefore := List.prefix_of_prefix_length_le hpre (List.prefix_append _ _) (Nat.le_of_lt hlt)
      rw [parse_waits (waits_before hhead hbefore hlt), settle, if_pos hlt]
    · obtain ⟨b, hb⟩ := List.prefix_of_prefix_length_le (List.prefix_append head body) hpre (by omega)
      rw [← hb] at hpre
      have hbody := (List.prefix_append_right_inj head).mp hpre
      rw [← hb]
      exact parse_settle hhead hstays hbody hb.symm hc.2 hnone

theorem readResponse_waits (hnone : ∀ p, p <+: s → findFirst endOfHead p = none) (hrs : Reads s rs) :
    readResponse env decode rs = none := by
  obtain ⟨rfl, hsize⟩ := hrs
  exact gather_eq (g := fun _ => none) rfl (fun _ _ _ h => nomatch h)
    (fun p c _ hpre _ => parse_waits (hnone _ hpre)) hsize List.prefix_rfl

/-- The header of a stream, and what follows it. -/
theorem head_of_stream {eoh : Nat} (h : findFirst endOfHead s = some eoh) :
    findFirst endOfHead (s.take eoh) = some (s.take eoh).length := by
  rw [List.length_take, min_eq_left (findFirst_le h)]
  exact findFirst_take_end (by decide) h

theorem settle_token (hstays : LengthStays env head body) {b tok : Bytes} :
    settle env decode head (head ++ b) = some (.token tok) ↔
      ∃ n : Nat, lengthAt env head = some (n : Int) ∧ n ≤ b.length ∧
        answer decode (b.take n) = .token tok := by
  rw [settle_head]
  constructor
  · intro h
    cases hn : lengthAt env head with
    | none =>
      rw [hn] at h
      cases h
    | some n =>
      obtain ⟨n, rfl⟩ := Int.eq_ofNat_of_zero_le (length_nonneg hstays hn)
      rw [hn] at h
      simp only [finish] at h
      split at h
      · cases h
      · rename_i hle
        rw [if_neg (by omega)] at h
        exact ⟨n, rfl, by omega, Option.some.inj h⟩
  · intro h
    obtain ⟨n, hn, hle, htok⟩ := h
    simp only [hn, finish]
    rw [if_neg (by omega), if_neg (by omega), Int.toNat_natCast, htok]

theorem arrived_behind (hhead : findFirst endOfHead head = some head.length) {b tok : Bytes} :
    Arrived decode (head ++ b) tok ↔
      ∃ n, contentLength head = some n ∧ n ≤ b.length ∧ answer decode (b.take n) = .token tok := by
  have hfind := findFirst_append (by decide) hhead b
  have hlen : (head ++ b).length = head.length + b.length := List.length_append
  constructor
  · intro h
    obtain ⟨eoh, n, heoh, hn, hle, htok⟩ := h
    obtain rfl := Option.some.inj (hfind.symm.trans heoh)
    rw [List.take_left] at hn
    rw [slice, List.drop_left, Nat.add_sub_cancel_left] at htok
    exact ⟨n, hn, by omega, htok⟩
  · intro h
    obtain ⟨n, hn, hle, htok⟩ := h
    refine ⟨head.length, n, hfind, by rwa [List.take_left], by omega, ?_⟩
    rwa [slice, List.drop_left, Nat.add_sub_cancel_left]

theorem settle_iff_arrived (hhead : findFirst endOfHead head = some head.length)
    (hstays : LengthStays env head body) (hfield : ReadsField env head body)
    (hp : p <+: head ++ body) (tok : Bytes) :
    settle env decode head p = some (.token tok) ↔ Arrived decode p tok := by
  by_cases hlt : p.length < head.length
  · have hbefore := List.prefix_of_prefix_length_le hp (List.prefix_append _ _) (Nat.le_of_lt hlt)
    rw [settle, if_pos hlt]
    refine iff_of_false (fun h => nomatch h) fun h => ?_
    obtain ⟨eoh, n, hfind, _⟩ := h
    rw [waits_before hhead hbefore hlt] at hfind
    cases hfind
  · obtain ⟨b, rfl⟩ := List.prefix_of_prefix_length_le (List.prefix_append head body) hp (by omega)
    have hb := ((List.prefix_append_right_inj head).mp hp).length_le
    rw [settle_token hstays, arrived_behind hhead]
    constructor
    · intro h
      obtain ⟨n, hn, hle, htok⟩ := h
      exact ⟨n, (hfield n (hle.trans hb)).mp hn, hle, htok⟩
    · intro h
      obtain ⟨n, hn, hle, htok⟩ := h
      exact ⟨n, (hfield n (hle.trans hb)).mpr hn, hle, htok⟩

theorem settle_ne_undefined (hstays : LengthStays env head body) :
    settle env decode head p ≠ some .undefined := by
  have hanswer (b : Bytes) : answer decode b ≠ .undefined := by
    unfold answer
    split
    · exact nofun
    · dsimp only
      split <;> exact nofun
  unfold settle
  split
  · exact nofun
  cases hn : lengthAt env head with
  | none => exact nofun
  | some n =>
    have hge := length_nonneg hstays hn
    simp only [finish]
    split
    · exact nofun
    · rw [if_neg (by omega)]
      exact fun h => hanswer _ (Option.some.inj h)

theorem sound_of_steady (hsteady : Steady env s) : Sound env decode s := by
  cases hfind : findFirst endOfHead s with
  | none =>
    have hnone (p : Bytes) (hp : p <+: s) : findFirst endOfHead p = none := by
      refine Option.eq_none_iff_forall_ne_some.mpr fun e he => ?_
      obtain ⟨t, rfl⟩ := hp
      rw [findFirst_append (by decide) he] at hfind
      cases hfind
    have hwaits {p : Bytes} {rs : List Bytes} (hp : p <+: s) (hrs : Reads p rs) :
        readResponse env decode rs = none :=
      readResponse_waits (fun q hq => hnone q (hq.trans hp)) hrs
    constructor
    · intro rs rs' hrs hrs'
      rw [hwaits List.prefix_rfl hrs, hwaits List.prefix_rfl hrs']
    · intro p rs tok hp hrs
      rw [hwaits hp hrs]
      refine iff_of_false nofun fun h => ?_
      obtain ⟨eoh, n, hsome, _⟩ := h
      rw [hnone p hp] at hsome
      cases hsome
    · intro p rs hp hrs
      rw [hwaits hp hrs]
      exact nofun
  | some eoh =>
    have hhead := head_of_stream hfind
    obtain ⟨hstays, hfield⟩ := hsteady eoh hfind
    have hsettle {p : Bytes} {rs : List Bytes} (hp : p <+: s) (hrs : Reads p rs) :
        readResponse env decode rs = settle env decode (s.take eoh) p :=
      readResponse_settle hhead hstays (by rwa [List.take_append_drop]) hrs
    constructor
    · intro rs rs' hrs hrs'
      rw [hsettle List.prefix_rfl hrs, hsettle List.prefix_rfl hrs']
    · intro p rs tok hp hrs
      rw [hsettle hp hrs]
      exact settle_iff_arrived hhead hstays hfield (by rwa [List.take_append_drop]) tok
    · intro p rs hp hrs
      rw [hsettle hp hrs]
      exact settle_ne_undefined hstays

/-! ## Reads that end at the wrong place -/

/-- One byte a read. -/
theorem reads_bytes (p : Bytes) : Reads p (p.map fun c => [c]) := by
  refine ⟨by rw [← List.flatMap_def, List.flatMap_singleton'], fun r hr => ?_⟩
  obtain ⟨c, _, rfl⟩ := List.mem_map.mp hr
  exact ⟨List.cons_ne_nil _ _, by rw [List.length_singleton]; omega⟩

/-- The read that completes the header may bring up to 63 bytes of the body. -/
theorem exists_reads (hhead : findFirst endOfHead head = some head.length) {b : Bytes}
    (hb : b.length ≤ 63) :
    ∃ rs, Reads (head ++ b) rs ∧
      ∀ decode, readResponse env decode rs = parseResponseData env decode (head ++ b) := by
  obtain ⟨lines, rfl⟩ := head_ends hhead
  have hline := endOfHead_last lines
  have hlen : (lines ++ endOfHead).length = (lines ++ [13, 10, 13]).length + 1 := by
    rw [hline, List.length_append, List.length_singleton]
  have hbytes := reads_bytes (lines ++ [13, 10, 13])
  refine ⟨((lines ++ [13, 10, 13]).map fun c => [c]) ++ [10 :: b], ⟨?_, ?_⟩, fun decode => ?_⟩
  · rw [List.flatten_append, hbytes.all, List.flatten_singleton, hline, List.append_assoc _ [10]]
    rfl
  · intro r hr
    refine (List.mem_append.mp hr).elim (hbytes.size r) fun hr => ?_
    obtain rfl := List.mem_singleton.mp hr
    exact ⟨List.cons_ne_nil _ _, by rw [List.length_cons]; omega⟩
  · have hwaits : readResponse env decode ((lines ++ [13, 10, 13]).map fun c => [c]) = none := by
      refine readResponse_waits (fun p hp => ?_) hbytes
      have hle := hp.length_le
      exact waits_before hhead (hp.trans (hline ▸ List.prefix_append _ _)) (by omega)
    rw [readResponse] at hwaits ⊢
    rw [gather_snoc, hwaits, Option.none_or, hbytes.all, hline, List.append_assoc _ [10]]
    rfl

/-- Only an empty body has a token. -/
def emptyHasToken (body : Bytes) : Option Ptree :=
  if body = [] then some [(bytes "token", [48])] else none

/-- The read that completes the header may bring this much of the body. -/
theorem behind_inside (hsound : Sound env decode (head ++ body))
    (hhead : findFirst endOfHead head = some head.length) (hb : b <+: body.take 63) :
    parseResponseData env decode (head ++ b) ≠ some .undefined := by
  obtain ⟨rs, hrs, hparse⟩ := exists_reads hhead (hb.length_le.trans (List.length_take_le _ _))
  rw [← hparse]
  refine hsound.inside ?_ hrs
  exact (List.prefix_append_right_inj head).mpr (hb.trans (List.take_prefix _ _))

theorem behind_timely (hsound : Sound env decode (head ++ body))
    (hhead : findFirst endOfHead head = some head.length) (hb : b <+: body.take 63) (tok : Bytes) :
    parseResponseData env decode (head ++ b) = some (.token tok) ↔
      ∃ n, contentLength head = some n ∧ n ≤ b.length ∧ answer decode (b.take n) = .token tok := by
  obtain ⟨rs, hrs, hparse⟩ := exists_reads hhead (hb.length_le.trans (List.length_take_le _ _))
  rw [← hparse, hsound.timely ?_ hrs, arrived_behind hhead]
  exact (List.prefix_append_right_inj head).mpr (hb.trans (List.take_prefix _ _))

/-- A name in the body would be at the end of what one read brings. -/
theorem no_name_behind (hsound : Sound env emptyHasToken (head ++ body))
    (hhead : findFirst endOfHead head = some head.length)
    (hcl : ifindFirst lengthName head = none) : ifindFirst lengthName (body.take 63) = none := by
  refine Option.eq_none_iff_forall_ne_some.mpr fun e he => ?_
  have hend : ifindFirst lengthName ((body.take 63).take e) = some ((body.take 63).take e).length := by
    rw [ifindFirst] at he ⊢
    have hle := findFirst_le he
    rw [List.length_map] at hle
    rw [List.map_take, findFirst_take_end (by decide) he, List.length_take, min_eq_left hle]
  exact behind_inside hsound hhead (List.take_prefix _ _) (parse_cut hhead hcl hend)

theorem number_nonneg (hsound : Sound env emptyHasToken (head ++ body))
    (hhead : findFirst endOfHead head = some head.length)
    (hcl : ifindFirst lengthName head = some cl) (hb : b <+: body.take 63) :
    0 ≤ atoi env (head.drop (cl + 2) ++ b) := by
  by_contra hneg
  refine behind_inside hsound hhead hb ?_
  rw [parse_named hhead hcl, finish, if_neg (by omega), if_pos (by omega)]

/-- With no body yet the length is 0, so that the field says 0; and a number in the body
would take the place of it. -/
theorem number_behind_blank (hsound : Sound env emptyHasToken (head ++ body))
    (hhead : findFirst endOfHead head = some head.length)
    (hcl : ifindFirst lengthName head = some cl) (hblank : (head.drop (cl + 2)).all isspace = true)
    (hb : b <+: body.take 63) : atoi env b = 0 := by
  have hempty : parseResponseData env emptyHasToken (head ++ []) = some (.token [48]) := by
    rw [parse_named hhead hcl, atoi_blank hblank, atoi_nil, finish_zero]
    rfl
  obtain ⟨n, hn, hzero, _⟩ := (behind_timely hsound hhead List.nil_prefix [48]).mp hempty
  obtain rfl := Nat.le_zero.mp hzero
  have hge := number_nonneg hsound hhead hcl hb
  rw [atoi_blank hblank] at hge
  by_contra hne
  have htoken := (behind_timely hsound hhead hb [48]).mpr ⟨0, hn, Nat.zero_le _, rfl⟩
  rw [parse_named hhead hcl, atoi_blank hblank, finish] at htoken
  split at htoken
  · cases htoken
  · rename_i hle
    have hbody : b.take (atoi env b).toNat ≠ [] := by
      intro h
      have := congrArg List.length h
      rw [List.length_take, List.length_nil] at this
      omega
    rw [if_neg (by omega), answer, emptyHasToken, if_neg hbody] at htoken
    cases htoken

theorem lengthStays_of_sound (hsound : Sound env emptyHasToken (head ++ body))
    (hhead : findFirst endOfHead head = some head.length) : LengthStays env head body := by
  unfold LengthStays
  cases hcl : ifindFirst lengthName head with
  | none => exact no_name_behind hsound hhead hcl
  | some cl =>
    have hge := number_nonneg hsound hhead hcl List.nil_prefix
    rw [List.append_nil] at hge
    exact ⟨hge, fun hblank b hb => number_behind_blank hsound hhead hcl hblank hb⟩

/-- Two lengths that are there at the same times are the same. -/
theorem eq_of_thresholds {x : Option Int} {y : Option Nat} {m : Nat}
    (h : ∀ k ≤ m, (∃ n : Nat, x = some (n : Int) ∧ n ≤ k) ↔ ∃ n, y = some n ∧ n ≤ k) :
    ∀ n ≤ m, x = some (n : Int) ↔ y = some n := by
  intro n hn
  constructor
  · intro hx
    obtain ⟨j, hy, hj⟩ := (h n hn).mp ⟨n, hx, Nat.le_refl n⟩
    obtain ⟨i, hi, hij⟩ := (h j (hj.trans hn)).mpr ⟨j, hy, Nat.le_refl j⟩
    have heq := Option.some.inj (hx.symm.trans hi)
    obtain rfl : j = n := by omega
    exact hy
  · intro hy
    obtain ⟨i, hx, hi⟩ := (h n hn).mpr ⟨n, hy, Nat.le_refl n⟩
    obtain ⟨j, hj, hij⟩ := (h i (hi.trans hn)).mp ⟨i, hx, Nat.le_refl i⟩
    have heq := Option.some.inj (hy.symm.trans hj)
    obtain rfl : i = n := by omega
    exact hx

/-- Every body has a token. -/
def everyHasToken (_ : Bytes) : Option Ptree := some [(bytes "token", [48])]

theorem readsField_of_sound (hsound : ∀ decode, Sound env decode (head ++ body))
    (hhead : findFirst endOfHead head = some head.length) : ReadsField env head body := by
  have hstays := lengthStays_of_sound (hsound _) hhead
  refine eq_of_thresholds fun k hk => ?_
  have hpart : head ++ body.take k <+: head ++ body :=
    (List.prefix_append_right_inj head).mpr (List.take_prefix _ _)
  have hlen : (body.take k).length = k := by rw [List.length_take, min_eq_left hk]
  have hreads := reads_bytes (head ++ body.take k)
  have htoken (b : Bytes) : answer everyHasToken b = .token [48] := rfl
  have h : _ = some (Answer.token [48]) ↔ _ := (hsound everyHasToken).timely hpart hreads
  rw [readResponse_settle hhead hstays hpart hreads, settle_token hstays, arrived_behind hhead, hlen] at h
  simpa only [htoken, and_true] using h

theorem steady_of_sound (hsound : ∀ decode, Sound env decode s) : Steady env s := by
  intro eoh hfind
  have hhead := head_of_stream hfind
  rw [← List.take_append_drop eoh s] at hsound
  exact ⟨lengthStays_of_sound (hsound _) hhead, readsField_of_sound hsound hhead⟩

/-- For every decoder. -/
theorem login_sound_iff (env : Env) (s : Bytes) :
    (∀ decode, Sound env decode s) ↔ Steady env s :=
  ⟨steady_of_sound, fun h _ => sound_of_steady h⟩

example : readResponse .ilp32 (fun b => some [(bytes "token", b)])
    [bytes "content-Length: 2\r\n\r\na", bytes "b"] = some (.token (bytes "ab")) := by
  decide +kernel

/-- A field without a blank behind its colon, of which the code reads the last digit. -/
def unspaced : Bytes := bytes "HTTP/1.1 200 OK\r\nContent-Length:15\r\n\r\nfifteen letters"

/-- A body of 15 letters has a token. -/
def lettersHaveToken (body : Bytes) : Option Ptree :=
  if body.length = 15 then some [(bytes "token", [48])] else none

/-- A negative length; the name in a body, behind a header that does not have it; and a
length of which only a part is read. -/
theorem login_unsound :
    ¬Sound .ilp32 (fun _ => none) (bytes "content-Length: -1\r\n\r\n") ∧
    ¬Sound .ilp32 (fun _ => none) (bytes "\r\n\r\ncontent-Length: 0") ∧
    ¬Sound .ilp32 lettersHaveToken unspaced := by
  refine ⟨fun h => ?_, fun h => ?_, fun h => ?_⟩
  · have hreads : Reads (bytes "content-Length: -1\r\n\r\n") [bytes "content-Length: -1\r\n\r\n"] :=
      ⟨by decide, by decide⟩
    exact h.inside List.prefix_rfl hreads (by decide +kernel)
  · have hwhole : Reads (bytes "\r\n\r\ncontent-Length: 0") [bytes "\r\n\r\ncontent-Length: 0"] :=
      ⟨by decide, by decide⟩
    have hcut : Reads (bytes "\r\n\r\ncontent-Length: 0")
        [bytes "\r\n\r\n", bytes "content-Length: 0"] :=
      ⟨by decide, by decide⟩
    exact absurd (h.same hwhole hcut) (by decide +kernel)
  · have hreads : Reads unspaced [unspaced] := ⟨by decide, by decide⟩
    have hend : findFirst endOfHead unspaced = some 38 := by decide +kernel
    have hlength : contentLength (unspaced.take 38) = some 15 := by decide +kernel
    have harrived : Arrived lettersHaveToken unspaced [48] :=
      ⟨38, 15, hend, hlength, by decide, by decide⟩
    exact absurd ((h.timely List.prefix_rfl hreads).mpr harrived) (by decide +kernel)

end CppSnippets.Ter.Http
