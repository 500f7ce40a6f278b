import CppSnippets.Lib.Gather
import CppSnippets.Ter.Framing
import Mathlib.Data.List.TakeWhile

/-!
# The login answer of the chat client

`http_t` gathers what it reads in `bufs_` and lets `parse_response_data` look at all of
it after each read: for the end of the header, for a `content-Length`, for the body.
What the JSON decoder makes of a body is `decode`, any function at all.
-/
namespace CppSnippets.Ter.Http

open CppSnippets.Lib
open CppSnippets.Ter.Framing (Ptree)
open CppSnippets.Wap (Byte Bytes Env bytes isspace isdigit magnitude strtol atoi slice search
  search_le search_le_at search_add_le search_take search_take_of_lt prefix_at_search)

/-- `is_iequal` compares characters so, in the classic locale. -/
def toupper (b : Byte) : Byte := if 97 ≤ b && b ≤ 122 then b - 32 else b

/-- `find_first`: the end of the first `k` in `s`. -/
def findFirst (k s : Bytes) : Option Nat :=
  if search k s < s.length then some (search k s + k.length) else none

def ifindFirst (k s : Bytes) : Option Nat := findFirst (k.map toupper) (s.map toupper)

def endOfHead : Bytes := bytes "\r\n\r\n"

def lengthName : Bytes := bytes "content-Length"

/-- How `parse_response_data` ends, other than by asking for more. -/
inductive Answer where
  /-- `true`, and `fn_` is called with the token. -/
  | token (tok : Bytes)
  /-- `false`. -/
  | failed
  /-- What `decode` throws. -/
  | thrown
  /-- The length is read behind `bufs_`, or the body is no range in it. -/
  | undefined
  deriving DecidableEq

/-- A body that is there. -/
def answer (decode : Bytes → Option Ptree) (body : Bytes) : Answer :=
  match decode body with
  | none => .thrown
  | some js =>
    let tok := (js.lookup (bytes "token")).getD []
    if tok = [] then .failed else .token tok

/-- `parse_response_data`; `none` is indeterminate. The iterator `eoh.end() + clen` is an
integer: `clen` wraps to a `size_t` and back to the difference of two pointers. -/
def parseResponseData (env : Env) (decode : Bytes → Option Ptree) (bufs : Bytes) : Option Answer :=
  match findFirst endOfHead bufs with
  | none => none
  | some eoh =>
    match ifindFirst lengthName bufs with
    | none => some .failed
    | some cl =>
      if bufs.length < cl + 2 then some .undefined
      else
        let clen := atoi env (bufs.drop (cl + 2))
        if bufs.length < eoh + clen then none
        else if clen < 0 then some .undefined
        else some (answer decode (slice bufs eoh (eoh + clen.toNat)))

/-- `read_response` from an empty buffer, over these reads: it reads on only where the
parser asks for more. `none` is still waiting at the end. -/
def readResponse (env : Env) (decode : Bytes → Option Ptree) (reads : List Bytes) : Option Answer :=
  gather (parseResponseData env decode) [] reads

/-- `s` is read into `tmps_` in pieces: a read gives some bytes and at most 64. -/
structure Reads (s : Bytes) (reads : List Bytes) : Prop where
  all : reads.flatten = s
  size : ∀ r ∈ reads, r ≠ [] ∧ r.length ≤ 64

/-! ## The first occurrence -/

variable {k a b s : Bytes} {e : Nat}

theorem findFirst_eq_some : findFirst k s = some e ↔ search k s < s.length ∧ search k s + k.length = e := by
  unfold findFirst
  split
  · rename_i h
    rw [Option.some.injEq]
    exact (and_iff_right h).symm
  · rename_i h
    exact iff_of_false (fun h => nomatch h) fun hs => h hs.1

theorem findFirst_eq_none : findFirst k s = none ↔ search k s = s.length := by
  have := search_le k s
  unfold findFirst
  split
  · rename_i h
    exact iff_of_false (fun h => nomatch h) (Nat.ne_of_lt h)
  · rename_i h
    exact iff_of_true rfl (by omega)

theorem findFirst_le (h : findFirst k s = some e) : e ≤ s.length := by
  obtain ⟨hlt, rfl⟩ := findFirst_eq_some.mp h
  exact search_add_le hlt

/-- An occurrence stays the first when more follows. -/
theorem findFirst_append (hk : k ≠ []) (h : findFirst k a = some e) (b : Bytes) :
    findFirst k (a ++ b) = some e := by
  obtain ⟨hlt, rfl⟩ := findFirst_eq_some.mp h
  have hpre : k <+: (a ++ b).drop (search k a) := by
    rw [List.drop_append_of_le_length (Nat.le_of_lt hlt)]
    exact (prefix_at_search hlt).trans (List.prefix_append _ _)
  have hlen : search k a < (a ++ b).length := by
    rw [List.length_append]
    omega
  have hle := search_le_at hlen hpre
  have hsize := search_add_le hlt
  have htake := search_take (s := a ++ b) (n := a.length) (by omega) hk (by omega)
  rw [List.take_left] at htake
  rw [htake] at hsize ⊢
  exact findFirst_eq_some.mpr ⟨by omega, rfl⟩

theorem findFirst_take_end (hk : k ≠ []) (h : findFirst k s = some e) :
    findFirst k (s.take e) = some e := by
  obtain ⟨hlt, rfl⟩ := findFirst_eq_some.mp h
  have hle := search_add_le hlt
  have hpos := List.length_pos_iff.mpr hk
  rw [findFirst_eq_some, search_take le_rfl hk hlt, List.length_take]
  exact ⟨by omega, rfl⟩

/-- What ends before the end of the first occurrence has none. -/
theorem findFirst_take {n : Nat} (h : findFirst k s = some e) (hn : n < e) :
    findFirst k (s.take n) = none := by
  obtain ⟨_, rfl⟩ := findFirst_eq_some.mp h
  exact findFirst_eq_none.mpr (search_take_of_lt hn)

/-- An occurrence does not run across a character that it does not have. -/
theorem not_prefix_across {c : Byte} (hc : c ∉ k) (h : ¬k <+: a ++ [c]) (b : Bytes) :
    ¬k <+: a ++ [c] ++ b := by
  intro hk
  refine (List.prefix_or_prefix_of_prefix hk (List.prefix_append (a ++ [c]) b)).elim h fun hpre => ?_
  exact hc (hpre.subset (List.mem_append_right _ List.mem_cons_self))

theorem search_cons {c : Byte} (h : ¬k <+: c :: s) : search k (c :: s) = search k s + 1 := by
  rw [search, if_neg fun hk => h (List.isPrefixOf_iff_prefix.mp hk)]

theorem search_cons_eq_length {c : Byte} (h : search k (c :: s) = (c :: s).length) :
    ¬k <+: c :: s ∧ search k s = s.length := by
  by_cases hk : k <+: c :: s
  · rw [search, if_pos (List.isPrefixOf_iff_prefix.mpr hk)] at h
    exact absurd h (Nat.succ_ne_zero _).symm
  · rw [search_cons hk] at h
    exact ⟨hk, Nat.succ.inj h⟩

theorem search_behind {c : Byte} (hc : c ∉ k) (h : search k (a ++ [c]) = (a ++ [c]).length) (b : Bytes) :
    search k (a ++ [c] ++ b) = (a ++ [c]).length + search k b := by
  induction a with
  | nil =>
    have hp := not_prefix_across (a := []) hc (search_cons_eq_length h).1 b
    exact (search_cons hp).trans (Nat.add_comm _ _)
  | cons x a ih =>
    have hp := not_prefix_across (a := x :: a) hc (search_cons_eq_length h).1 b
    have hrest := ih (search_cons_eq_length h).2
    calc search k (x :: a ++ [c] ++ b)
        = search k (a ++ [c] ++ b) + 1 := search_cons hp
      _ = (x :: a ++ [c]).length + search k b := by
        rw [hrest, List.cons_append, List.length_cons]
        omega

theorem findFirst_behind {c : Byte} (hc : c ∉ k) (h : findFirst k (a ++ [c]) = none) (b : Bytes) :
    findFirst k (a ++ [c] ++ b) = (findFirst k b).map ((a ++ [c]).length + ·) := by
  have hs := search_behind hc (findFirst_eq_none.mp h) b
  have hlen : (a ++ [c] ++ b).length = (a ++ [c]).length + b.length := List.length_append
  unfold findFirst
  by_cases hlt : search k b < b.length
  · rw [hs, if_pos (by omega), if_pos hlt, Option.map_some, Nat.add_assoc]
  · rw [hs, if_neg (by omega), if_neg hlt, Option.map_none]

/-- An occurrence ends before characters that it does not have. -/
theorem findFirst_le_left (hk : k ≠ []) (hb : ∀ c ∈ b, c ∉ k) (h : findFirst k (a ++ b) = some e) :
    e ≤ a.length := by
  obtain ⟨hlt, rfl⟩ := findFirst_eq_some.mp h
  by_contra hgt
  obtain ⟨rest, hrest⟩ := prefix_at_search hlt
  have hlast : (a ++ b)[search k (a ++ b) + (k.length - 1)]? = some (k.getLast hk) := by
    have hpos := List.length_pos_iff.mpr hk
    rw [← List.getElem?_drop, ← hrest, List.getElem?_append_left (by omega),
      List.getLast_eq_getElem, List.getElem?_eq_getElem]
  rw [List.getElem?_append_right (by omega)] at hlast
  exact hb _ (List.mem_of_getElem? hlast) (List.getLast_mem hk)

/-! ## The number behind the name -/

variable {env : Env}

theorem magnitude_append {c : Byte} (hmem : c ∈ a) (hc : isdigit c = false) (b : Bytes) :
    magnitude (a ++ b) = magnitude a := by
  unfold magnitude
  rw [List.takeWhile_append, if_neg]
  intro hlen
  have hall := List.takeWhile_eq_self_iff.mp (List.takeWhile_prefix isdigit |>.eq_of_length hlen)
  rw [hall c hmem] at hc
  cases hc

/-- Behind the spaces of a text that is not blank and ends its line, the end of the line
is still to come. -/
theorem dropWhile_line {t : Bytes} (ht : ¬(t ++ [10]).all isspace = true) :
    ∃ x v, (t ++ [10]).dropWhile isspace = x :: v ∧ 10 ∈ v := by
  have hsplit := List.takeWhile_append_dropWhile (p := isspace) (l := t ++ [10])
  have hhead := List.head?_dropWhile_not isspace (t ++ [10])
  cases hdrop : (t ++ [10]).dropWhile isspace with
  | nil => exact absurd (List.all_eq_true.mpr (List.dropWhile_eq_nil_iff.mp hdrop)) ht
  | cons x v =>
    refine ⟨x, v, rfl, ?_⟩
    rw [hdrop] at hsplit hhead
    rcases List.eq_nil_or_concat v with rfl | ⟨u, y, hv⟩
    · obtain rfl := List.singleton_inj.mp (List.append_inj' hsplit rfl).2
      cases hhead
    · rw [List.concat_eq_append] at hv
      rw [hv, ← List.cons_append, ← List.append_assoc] at hsplit
      rw [hv]
      obtain rfl := List.singleton_inj.mp (List.append_inj' hsplit rfl).2
      exact List.mem_append_right _ List.mem_cons_self

/-- Such a text is read to an end before what follows. -/
theorem atoi_append {t : Bytes} (ht : ¬(t ++ [10]).all isspace = true) (b : Bytes) :
    atoi env (t ++ [10] ++ b) = atoi env (t ++ [10]) := by
  obtain ⟨x, v, hdrop, hmem⟩ := dropWhile_line ht
  have hmore : (t ++ [10] ++ b).dropWhile isspace = x :: (v ++ b) := by
    rw [List.dropWhile_append, hdrop]
    rfl
  have hv := magnitude_append hmem (by decide) b
  have hxv := magnitude_append (List.mem_cons_of_mem x hmem) (by decide) b
  rw [atoi, atoi, strtol, strtol, hmore, hdrop]
  split
  · rename_i heq
    cases heq
    rw [hv]
    rfl
  · rename_i heq
    cases heq
    rw [hv]
    rfl
  · rename_i hminus hplus
    split
    · rename_i heq
      cases heq
      exact absurd rfl (hminus _)
    · rename_i heq
      cases heq
      exact absurd rfl (hplus _)
    · rw [← List.cons_append, hxv]

theorem atoi_blank (ha : a.all isspace = true) (b : Bytes) : atoi env (a ++ b) = atoi env b := by
  have hdrop : (a ++ b).dropWhile isspace = b.dropWhile isspace := by
    rw [List.dropWhile_append, List.dropWhile_eq_nil_iff.mpr (List.all_eq_true.mp ha)]
    rfl
  rw [atoi, atoi, strtol, strtol, hdrop]

theorem atoi_nil : atoi env [] = 0 := by
  have hpow : (1 : Int) ≤ 2 ^ (env.wordBits - 1) := one_le_pow₀ (by decide)
  have hmag : magnitude [] = 0 := rfl
  have hnum : strtol env.wordBits [] = min (2 ^ (env.wordBits - 1) - 1) (magnitude [] : Int) := rfl
  rw [atoi, hnum, hmag, Int.natCast_zero, min_eq_right (by omega)]
  rfl

end CppSnippets.Ter.Http
