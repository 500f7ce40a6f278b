import CppSnippets.Lib.Header
import CppSnippets.Rtsp.Connection
import Mathlib.Algebra.Order.Ring.Int

/-!
# What the client makes of an answer

`_parse_head` finds the length of the body in a line `Content-Length: n`, if there is white
space before the number; then it knows how much is to come, however much of the body it has.
-/
namespace CppSnippets.Rtsp

open CppSnippets.Lib
open CppSnippets.Wap (Byte Bytes Env bytes isspace isdigit atoi strtol magnitude find)
open CppSnippets.Ter.Http (toupper)
open CppSnippets.Push (crlf textOf)

/-! ## Numbers and lines -/

theorem dropWhile_ne_nil {l : Bytes} (h : ∃ b ∈ l, isspace b = false) : l.dropWhile isspace ≠ [] := by
  obtain ⟨b, hb, hspace⟩ := h
  intro hnil
  rw [List.dropWhile_eq_nil_iff.mp hnil b hb] at hspace
  cases hspace

/-- A number ends before what is no digit. -/
theorem strtol_cut (w : Nat) {s : Bytes} (hs : ∃ b ∈ s, isspace b = false) {c : Byte}
    (hc : isdigit c = false) (r : Bytes) : strtol w (s ++ c :: r) = strtol w s := by
  have hmag : ∀ t : Bytes, magnitude (t ++ c :: r) = magnitude t := by
    intro t
    have htake : (t ++ c :: r).takeWhile isdigit = t.takeWhile isdigit := by
      induction t with
      | nil => exact List.takeWhile_cons_of_neg (by simp [hc])
      | cons b t ih => rw [List.cons_append, List.takeWhile_cons, List.takeWhile_cons, ih]
    rw [magnitude, htake, magnitude]
  have hdrop : (s ++ c :: r).dropWhile isspace = s.dropWhile isspace ++ c :: r := by
    rw [List.dropWhile_append, if_neg]
    rw [List.isEmpty_iff]
    exact dropWhile_ne_nil hs
  obtain ⟨b, t, hbt⟩ := List.exists_cons_of_ne_nil (dropWhile_ne_nil hs)
  unfold strtol
  rw [hdrop, hbt, List.cons_append]
  have hfull := hmag (b :: t)
  rw [List.cons_append] at hfull
  split
  · rename_i heq
    cases heq
    simp only [hmag]
  · rename_i heq
    cases heq
    simp only [hmag]
  · rename_i h45 h43
    have h1 : b ≠ 45 := fun h => h45 (t ++ c :: r) (by rw [h])
    have h2 : b ≠ 43 := fun h => h43 (t ++ c :: r) (by rw [h])
    split
    · rename_i heq
      exact absurd (List.cons.inj heq).1 h1
    · rename_i heq
      exact absurd (List.cons.inj heq).1 h2
    · rw [hfull]

theorem trimRight_cr (l : Bytes) : trimRight (l ++ [13]) = trimRight l := by
  rw [trimRight, List.rdropWhile_concat_pos _ _ _ (by decide)]
  rfl

theorem trimRight_begins (l : Bytes) : trimRight l <+: l := List.rdropWhile_prefix _ _

/-- The value is the end of the trimmed line. -/
theorem valueAt_spec {l : Bytes} {k : Nat} (h : valueAt l = some k) :
    k < l.length ∧ ∃ b ∈ l.drop k, isspace b = false := by
  simp only [valueAt] at h
  split at h
  · rename_i hv
    obtain ⟨_, hlt, hne, _⟩ := hv
    cases h
    have hsuffix : (l.drop (find 58 l + 1)).dropWhile isspace <:+ l :=
      (List.dropWhile_suffix _).trans (List.drop_suffix _ _)
    have hspace := List.head_dropWhile_not isspace hne
    revert hlt hspace hsuffix hne
    generalize (l.drop (find 58 l + 1)).dropWhile isspace = v
    intro _ hne hsuffix hspace
    obtain ⟨pre, rfl⟩ := hsuffix
    have hpos := List.length_pos_iff.mpr hne
    rw [List.length_append, Nat.add_sub_cancel, List.drop_left]
    exact ⟨by omega, _, List.head_mem hne, hspace⟩
  · cases h

/-- A line is read without what comes behind its end. -/
theorem headLine_cut (env : Env) (h : Head) (l rest : Bytes) :
    headLine env h (l ++ crlf ++ rest) (trimRight l) = headLine env h (l ++ crlf) (trimRight l) := by
  unfold headLine
  split
  · cases hv : valueAt (trimRight l) with
    | none => rfl
    | some k =>
      obtain ⟨hlt, b, hb, hspace⟩ := valueAt_spec hv
      obtain ⟨t, ht⟩ := trimRight_begins l
      have hle : k ≤ l.length := by
        have := congrArg List.length ht
        rw [List.length_append] at this
        omega
      have hvalue : ∃ b ∈ l.drop k, isspace b = false := by
        refine ⟨b, ?_, hspace⟩
        rw [← ht, List.drop_append_of_le_length (Nat.le_of_lt hlt)]
        exact List.mem_append_left _ hb
      have hcut : ∀ r : Bytes, atoi env ((l ++ crlf ++ r).drop k) = atoi env (l.drop k) := by
        intro r
        rw [List.append_assoc, List.drop_append_of_le_length hle]
        exact congrArg (Int.bmod · (2 ^ 32)) (strtol_cut env.wordBits hvalue (by decide) (10 :: r))
      have hself := hcut []
      rw [List.append_nil] at hself
      simp only [hcut rest, hself]
  · rfl

variable {env : Env}

/-! ## The line for the length -/

def lengthName : Bytes := bytes "Content-Length"

/-- White space between the colon and the value. -/
def spaced (l : Bytes) : Bool := (l.drop (find 58 l + 1)).head?.any isspace

theorem trimRight_append {a b : Bytes} (hb : ∀ x ∈ b, isspace x = true) :
    trimRight (a ++ b) = trimRight a := by
  induction b using List.reverseRecOn with
  | nil => rw [List.append_nil]
  | append_singleton b x ih =>
    have hx := hb x (List.mem_append_right _ (List.mem_singleton.mpr rfl))
    rw [← List.append_assoc, trimRight, List.rdropWhile_concat_pos _ _ _ hx]
    exact ih fun y hy => hb y (List.mem_append_left _ hy)

theorem isspace_of_isBlank {b : Byte} (h : Header.isBlank b = true) : isspace b = true := by
  simp only [Header.isBlank, Bool.or_eq_true, beq_iff_eq] at h
  rcases h with rfl | rfl <;> rfl

theorem isspace_of_isDigit {b : Byte} (h : Header.isDigit b = true) : isspace b = false := by
  simp only [Header.isDigit, Bool.and_eq_true, decide_eq_true_eq, UInt8.le_iff_toNat_le] at h
  simp only [isspace, Bool.or_eq_false_iff, Bool.and_eq_false_iff, decide_eq_false_iff_not,
    beq_eq_false_iff_ne, ne_eq, UInt8.le_iff_toNat_le, ← UInt8.toNat_inj, UInt8.reduceToNat]
  simp only [UInt8.reduceToNat] at h
  omega

/-- A number is what digits write, before what is no digit. -/
theorem atoi_digits {v rest : Bytes} {n : Nat} (hv : Header.number v = some n)
    (hrest : ∀ b ∈ rest.head?, isdigit b = false) (hn : n < 2 ^ 31) : atoi env (v ++ rest) = n := by
  obtain ⟨hne, hall, hval⟩ := Header.number_eq_some hv
  obtain ⟨d, ds, rfl⟩ := List.exists_cons_of_ne_nil hne
  have hdrop : (d :: ds ++ rest).dropWhile isspace = d :: ds ++ rest :=
    List.dropWhile_cons_of_neg (by rw [isspace_of_isDigit (hall d List.mem_cons_self)]; decide)
  have htake : (d :: ds ++ rest).takeWhile isdigit = d :: ds := by
    have hdigits : ∀ b ∈ d :: ds, isdigit b = true := hall
    rw [List.takeWhile_append_of_pos hdigits]
    cases rest with
    | nil => rw [List.takeWhile_nil, List.append_nil]
    | cons b rest => rw [List.takeWhile_cons_of_neg (by rw [hrest b rfl]; decide), List.append_nil]
  have hmag : magnitude (d :: ds ++ rest) = n := by
    rw [magnitude, htake]
    exact hval
  have hsign : d ≠ 45 ∧ d ≠ 43 := by
    have hd := hall d List.mem_cons_self
    refine ⟨?_, ?_⟩
    · rintro rfl
      cases hd
    · rintro rfl
      cases hd
  have hlong : (2 : Int) ^ 31 ≤ 2 ^ (env.wordBits - 1) :=
    pow_le_pow_right₀ (by decide) (by have := env.word_ge; omega)
  have hnum : strtol env.wordBits (d :: ds ++ rest) = n := by
    unfold strtol
    rw [hdrop, List.cons_append]
    rw [List.cons_append] at hmag
    split
    · rename_i heq
      exact absurd (List.cons.inj heq).1 hsign.1
    · rename_i heq
      exact absurd (List.cons.inj heq).1 hsign.2
    · rw [hmag]
      omega
  rw [atoi, hnum]
  exact Int.bmod_eq_of_le (by omega) (by omega)

/-- A trimmed line that is the field, with white space before the value. -/
theorem valueAt_field {nm before v : Bytes} (hnm : 58 ∉ nm) (hne : nm ≠ []) (hbefore : before ≠ [])
    (hspace : ∀ b ∈ before, isspace b = true) (hv : v ≠ []) (hdigits : ∀ b ∈ v, Header.isDigit b = true) :
    valueAt (nm ++ 58 :: (before ++ v)) = some (nm ++ 58 :: before).length := by
  have hfind : find 58 (nm ++ 58 :: (before ++ v)) = nm.length := Wap.find_append_of_not_mem hnm _
  have hdrop : (nm ++ 58 :: (before ++ v)).drop (nm.length + 1) = before ++ v := by
    rw [List.drop_append, List.drop_eq_nil_of_le (Nat.le_succ _), Nat.add_sub_cancel_left]
    rfl
  have hvalue : (before ++ v).dropWhile isspace = v := by
    rw [List.dropWhile_append, List.dropWhile_eq_nil_iff.mpr hspace]
    obtain ⟨d, ds, rfl⟩ := List.exists_cons_of_ne_nil hv
    exact List.dropWhile_cons_of_neg (by
      rw [isspace_of_isDigit (hdigits d List.mem_cons_self)]
      decide)
  have hcr : 13 ∉ v := fun h => by cases hdigits 13 h
  have hpos := List.length_pos_iff.mpr hbefore
  have hnpos := List.length_pos_iff.mpr hne
  simp only [valueAt, hfind, hdrop, hvalue]
  rw [if_pos ⟨by omega, by rw [List.length_append]; omega, hv, hcr⟩]
  simp only [List.length_append, List.length_cons, Option.some.injEq]
  omega

theorem istartsWith_append {k nm t : Bytes} (hlen : nm.length = k.length) :
    istartsWith k (nm ++ t) = decide (k.map toupper = nm.map toupper) := by
  rw [istartsWith, Bool.eq_iff_iff, List.isPrefixOf_iff_prefix, decide_eq_true_eq, List.map_append]
  constructor
  · intro h
    have hle : (k.map toupper).length = (nm.map toupper).length := by
      rw [List.length_map, List.length_map, hlen]
    exact (List.prefix_of_prefix_length_le h (List.prefix_append _ _) (Nat.le_of_eq hle)).eq_of_length hle
  · intro h
    rw [h]
    exact List.prefix_append _ _

theorem toSize_nat {n : Nat} (hn : n < 2 ^ 31) : toSize env n = some n := by
  have hword : (2 : Int) ^ 32 ≤ 2 ^ env.wordBits := pow_le_pow_right₀ (by decide) env.word_ge
  have hmod : (n : Int).emod (2 ^ env.wordBits) = n := Int.emod_eq_of_lt (by omega) (by omega)
  rw [toSize, hmod, if_neg (by omega), Int.toNat_natCast]

theorem trimRight_digits {a v : Bytes} (hne : v ≠ []) (hv : ∀ b ∈ v, Header.isDigit b = true) :
    trimRight (a ++ v) = a ++ v := by
  rw [trimRight, List.rdropWhile_eq_self_iff]
  intro hl
  rw [List.getLast_append_of_ne_nil _ hne, isspace_of_isDigit (hv _ (List.getLast_mem hne))]
  decide

/-- The client finds a length behind white space. -/
theorem headLine_length {l v : Bytes} {n : Nat} (hname : istartsWith lengthName l = true)
    (hvalue : Header.value lengthName l = some v) (hnumber : Header.number v = some n)
    (hspaced : spaced l = true) (hn : n < 2 ^ 31) (h : Head) :
    headLine env h (l ++ crlf) (trimRight l) = { h with clen := some n } := by
  obtain ⟨nm, before, behind, rfl, hnm, hlower, hbefore, hbehind⟩ := Header.value_eq_some hvalue
  obtain ⟨hne, hdigits, _⟩ := Header.number_eq_some hnumber
  have hlen : nm.length = lengthName.length := by simpa using congrArg List.length hlower
  have hnil : nm ≠ [] := List.ne_nil_of_length_pos (by rw [hlen]; decide)
  have hspaces : ∀ b ∈ before, isspace b = true := fun b hb => isspace_of_isBlank (hbefore b hb)
  have hblank : before ≠ [] := by
    rintro rfl
    obtain ⟨d, ds, rfl⟩ := List.exists_cons_of_ne_nil hne
    have hfind : find 58 (nm ++ 58 :: ([] ++ d :: ds ++ behind)) = nm.length :=
      Wap.find_append_of_not_mem hnm _
    rw [spaced, hfind, List.drop_append, List.drop_eq_nil_of_le (Nat.le_succ _),
      Nat.add_sub_cancel_left] at hspaced
    have hd : isspace d = true := hspaced
    rw [isspace_of_isDigit (hdigits d List.mem_cons_self)] at hd
    cases hd
  have hline : nm ++ 58 :: (before ++ v ++ behind) = nm ++ 58 :: before ++ v ++ behind := by
    simp only [List.append_assoc, List.cons_append]
  have htrim : trimRight (nm ++ 58 :: (before ++ v ++ behind)) = nm ++ 58 :: (before ++ v) := by
    rw [hline, trimRight_append fun b hb => isspace_of_isBlank (hbehind b hb),
      trimRight_digits hne hdigits, List.append_assoc, List.cons_append]
  have hafter : (nm ++ 58 :: (before ++ v ++ behind) ++ crlf).drop (nm ++ 58 :: before).length =
      v ++ (behind ++ crlf) := by
    rw [hline, List.append_assoc, List.append_assoc, List.drop_left]
  have hrest : ∀ b ∈ (behind ++ crlf).head?, isdigit b = false := by
    intro b hb
    cases behind with
    | nil =>
      obtain rfl := Option.some.inj hb
      rfl
    | cons c cs =>
      obtain rfl := Option.some.inj hb
      have hc := hbehind c List.mem_cons_self
      simp only [Header.isBlank, Bool.or_eq_true, beq_iff_eq] at hc
      rcases hc with rfl | rfl <;> rfl
  rw [istartsWith_append hlen] at hname
  have hstarts : istartsWith (bytes "Content-Length") (nm ++ 58 :: (before ++ v)) = true :=
    (istartsWith_append hlen).trans hname
  rw [htrim, headLine, if_pos hstarts, valueAt_field hnm hnil hblank hspaces hne hdigits]
  simp only [hafter, atoi_digits hnumber hrest hn, toSize_nat hn]

/-! ## An answer -/

structure Answer where
  lines : List Bytes
  body : Bytes

namespace Answer

def bytes (r : Answer) : Bytes := textOf r.lines ++ crlf ++ r.body

/-- What the client makes of the lines. -/
def head (env : Env) (session : Bytes) (r : Answer) : Head :=
  r.lines.foldl (fun h l => headLine env h (l ++ crlf) (trimRight l)) ⟨none, session⟩

/-- Lines that are not blank. One that begins with the name of the length is that field,
with the length of the body behind white space; without one there is no body. -/
structure Ok (r : Answer) : Prop where
  lines_ne : r.lines ≠ []
  line : ∀ l ∈ r.lines, 10 ∉ l ∧ trimRight l ≠ []
  length : ∀ l ∈ r.lines, istartsWith lengthName l = true →
    (Header.value lengthName l).bind Header.number = some r.body.length ∧ spaced l = true
  bare : (∀ l ∈ r.lines, istartsWith lengthName l = false) → r.body = []
  short : r.bytes.length < 2 ^ 31

end Answer

variable {r : Answer}

/-- A line that does not begin with the name leaves the length as it is. -/
theorem headLine_other {l : Bytes} (hname : istartsWith lengthName l = false) (h : Head) :
    (headLine env h (l ++ crlf) (trimRight l)).clen = h.clen := by
  have hnot : istartsWith (bytes "Content-Length") (trimRight l) = false := by
    rw [Bool.eq_false_iff] at hname ⊢
    intro hstarts
    refine hname ?_
    rw [istartsWith, List.isPrefixOf_iff_prefix] at hstarts ⊢
    exact hstarts.trans ((trimRight_begins l).map toupper)
  rw [headLine, if_neg (by rw [hnot]; decide)]
  split
  · split <;> rfl
  · rfl

/-- After the loop the length is that of the lines for it. -/
theorem clen_foldl {n : Nat} (hn : n < 2 ^ 31) (ls : List Bytes)
    (hls : ∀ l ∈ ls, istartsWith lengthName l = true →
      (Header.value lengthName l).bind Header.number = some n ∧ spaced l = true) : ∀ h : Head,
    (ls.foldl (fun h l => headLine env h (l ++ crlf) (trimRight l)) h).clen =
      if ls.any (istartsWith lengthName) then some n else h.clen := by
  induction ls with
  | nil => exact fun _ => rfl
  | cons l ls ih =>
    intro h
    rw [List.foldl_cons, ih fun l hl => hls l (List.mem_cons_of_mem _ hl), List.any_cons]
    cases hname : istartsWith lengthName l with
    | true =>
      obtain ⟨hvalue, hspaced⟩ := hls l List.mem_cons_self hname
      obtain ⟨v, hv, hnumber⟩ := Option.bind_eq_some_iff.mp hvalue
      rw [headLine_length hname hv hnumber hspaced hn]
      simp only [Bool.true_or, if_true, ite_self]
    | false => rw [headLine_other hname, Bool.false_or]

/-- The client finds the length of the body. -/
theorem Answer.Ok.clen (hr : r.Ok) (env : Env) (session : Bytes) :
    ((r.head env session).clen).getD 0 = r.body.length := by
  have hshort := hr.short
  have hlen : r.bytes.length = (textOf r.lines ++ crlf).length + r.body.length := List.length_append
  rw [Answer.head, clen_foldl (by omega) r.lines hr.length]
  split
  · rfl
  · rename_i hnone
    have hbare := hr.bare fun l hl => by
      rw [List.any_eq_true] at hnone
      exact Bool.eq_false_iff.mpr fun h => hnone ⟨l, hl, h⟩
    rw [hbare]
    rfl

/-! ## The loop -/

theorem headLoop_lines (env : Env) (rest : Bytes) (ls : List Bytes)
    (hls : ∀ l ∈ ls, 10 ∉ l ∧ trimRight l ≠ []) : ∀ (n : Nat) (h : Head), ls.length < n →
      headLoop env n h (textOf ls ++ crlf ++ rest) =
        (ls.foldl (fun h l => headLine env h (l ++ crlf) (trimRight l)) h, rest) := by
  induction ls with
  | nil =>
    intro n h hn
    obtain ⟨n, rfl⟩ := Nat.exists_eq_succ_of_ne_zero (Nat.ne_of_gt hn)
    have hfind : find 10 (textOf [] ++ crlf ++ rest) = 1 := rfl
    have hline : trimRight ((textOf [] ++ crlf ++ rest).take 1) = [] := rfl
    have hhead : headLine env h (textOf [] ++ crlf ++ rest) [] = h := rfl
    rw [headLoop, hfind, if_pos (by simp [textOf, crlf])]
    simp only [hline, hhead, if_true]
    rfl
  | cons l ls ih =>
    intro n h hn
    obtain ⟨n, rfl⟩ := Nat.exists_eq_succ_of_ne_zero (Nat.ne_of_gt (Nat.zero_lt_of_lt hn))
    obtain ⟨hl, hne⟩ := hls l List.mem_cons_self
    have hassoc : textOf (l :: ls) ++ crlf ++ rest = l ++ crlf ++ (textOf ls ++ crlf ++ rest) := by
      simp only [textOf, List.flatMap_cons, List.append_assoc]
    have hfind : find 10 (l ++ crlf ++ (textOf ls ++ crlf ++ rest)) = l.length + 1 := by
      rw [List.append_assoc]
      exact Push.find_append hl _
    have htake : (l ++ crlf ++ (textOf ls ++ crlf ++ rest)).take (l.length + 1) = l ++ [13] := by
      rw [List.append_assoc, List.take_length_add_append]
      rfl
    have hdrop : (l ++ crlf ++ (textOf ls ++ crlf ++ rest)).drop (l.length + 1 + 1) =
        textOf ls ++ crlf ++ rest := List.drop_left' (by simp [crlf])
    rw [hassoc, headLoop, hfind, if_pos (by simp only [List.length_append, crlf, List.length_cons]; omega)]
    simp only [htake, hdrop, trimRight_cr, hne, if_false, headLine_cut]
    exact ih (fun l hl => hls l (List.mem_cons_of_mem _ hl)) n _ (by
      simp only [List.length_cons] at hn
      omega)

/-- The spec of `_parse_head`, with some of the body already there. -/
theorem parseHead_spec (hr : r.Ok) (session : Bytes) {p rest : Bytes}
    (hp : p = textOf r.lines ++ crlf ++ rest) (hrest : rest <+: r.body) :
    parseHead env p session = (r.bytes.length - p.length, (r.head env session).session) := by
  have hlines : r.lines.length < p.length + 1 := by
    have hle : ∀ ls : List Bytes, ls.length ≤ (textOf ls).length := by
      intro ls
      induction ls with
      | nil => exact Nat.le_refl _
      | cons l ls ih =>
        simp only [textOf, List.flatMap_cons, List.length_append, List.length_cons, crlf] at ih ⊢
        omega
    have := hle r.lines
    rw [hp, List.length_append, List.length_append]
    omega
  have hloop : headLoop env (p.length + 1) ⟨none, session⟩ (textOf r.lines ++ crlf ++ rest) =
      (r.head env session, rest) :=
    headLoop_lines env rest r.lines hr.line (p.length + 1) ⟨none, session⟩ hlines
  rw [← hp] at hloop
  have hbytes : r.bytes.length = (textOf r.lines ++ crlf).length + r.body.length := List.length_append
  have hplen : p.length = (textOf r.lines ++ crlf).length + rest.length := by
    rw [hp, List.length_append]
  have hlen := hr.clen env session
  have hshort := hr.short
  have hle := hrest.length_le
  rw [parseHead, hloop]
  dsimp only
  refine Prod.ext ?_ rfl
  cases hn : (r.head env session).clen with
  | none =>
    rw [hn, Option.getD_none] at hlen
    dsimp only
    omega
  | some n =>
    rw [hn, Option.getD_some] at hlen
    have hword : 2 ^ 32 ≤ 2 ^ env.wordBits := Nat.pow_le_pow_right (by decide) env.word_ge
    have hall : (n + (p.length - rest.length)) % 2 ^ env.wordBits = r.bytes.length := by
      rw [Nat.mod_eq_of_lt (by omega)]
      omega
    simp only [hall]
    split
    · exact Nat.mod_eq_of_lt (by omega)
    · omega

end CppSnippets.Rtsp
