import CppSnippets.Wap.Session
import Mathlib.Data.List.TakeWhile

/-!
# The cookies of a response

`set_cookies` cuts the value of each `Set-Cookie` header at `;` and what stands before
it at `=`. `split1` skips all the separators that follow one another, has nothing to
answer when nothing follows them, and leaves the strings as they are when there is none.
-/
namespace CppSnippets.Wap

/-! ## Maps -/

theorem StrMap.find_cons (k' a b : Bytes) (m : StrMap) :
    StrMap.find k' ((a, b) :: m) = if k' = a then some b else m.find k' := by
  rw [StrMap.find, List.lookup_cons]
  by_cases h : k' = a
  · rw [if_pos h, beq_iff_eq.mpr h]
  · rw [if_neg h, beq_eq_false_iff_ne.mpr h]
    rfl

theorem StrMap.find_assign (k v k' : Bytes) (m : StrMap) :
    (m.assign k v).find k' = if k' = k then some v else m.find k' := by
  induction m with
  | nil => exact StrMap.find_cons k' k v []
  | cons e m ih =>
    obtain ⟨a, b⟩ := e
    rw [StrMap.assign, StrMap.upsert]
    by_cases ha : k = a
    · rw [if_pos ha, StrMap.find_cons, StrMap.find_cons, ha]
      by_cases hk : k' = a
      · rw [if_pos hk, if_pos hk]
      · rw [if_neg hk, if_neg hk, if_neg hk]
    rw [if_neg ha]
    by_cases hlt : k < a
    · rw [if_pos hlt, StrMap.find_cons]
    rw [if_neg hlt, StrMap.find_cons, StrMap.find_cons]
    by_cases hk : k' = a
    · rw [if_pos hk, if_pos hk, if_neg (fun h => ha (h.symm.trans hk))]
    · rw [if_neg hk, if_neg hk]
      exact ih

/-! ## What is claimed -/

/-- The header `Set-Cookie`. -/
def setCookie : Bytes := bytes "Set-Cookie"

/-- What stands before the first `;`. -/
def pairOf (val : Bytes) : Bytes := val.takeWhile (· != 59)

/-- The cookie that a header sets: what stands before the first `=` and behind it. -/
def cookieOf (val : Bytes) : Option (Bytes × Bytes) :=
  if 61 ∈ pairOf val then
    some ((pairOf val).takeWhile (· != 61), ((pairOf val).dropWhile (· != 61)).drop 1)
  else none

/-- The value that one header sets for this name. -/
def ownValue (k : Bytes) (h : Bytes × Bytes) : Option Bytes :=
  if h.1 = setCookie then
    match cookieOf h.2 with
    | some (name, value) => if k = name then some value else none
    | none => none
  else none

/-- The value that the headers set last for this name. -/
def lastValue (k : Bytes) : Head → Option Bytes
  | [] => none
  | h :: hs => (lastValue k hs).or (ownValue k h)

/-- No call is out of range, and each name has the value that was set last, or as before. -/
def SetsCookies (jar : StrMap) (hs : Head) : Prop :=
  ∃ jar' : StrMap, setCookies jar hs = .ok jar' ∧
    ∀ k, jar'.find k = (lastValue k hs).or (jar.find k)

/-- A header of the form `name=value;rest`, whose value is not empty and does not begin with
`=`, and whose rest is more than `;`. The one header without `;` is `=`. -/
def WellFormed (val : Bytes) : Prop :=
  val = [61] ∨ ∃ name value rest : Bytes, val = name ++ 61 :: value ++ 59 :: rest ∧
    61 ∉ name ∧ 59 ∉ name ∧ 59 ∉ value ∧ (∃ b ∈ value.head?, b ≠ 61) ∧ ∃ b ∈ rest, b ≠ 59

/-! ## Cutting once -/

variable {a b val name value rest k : Bytes} {c : Byte} {jar : StrMap}

theorem takeWhile_sep (h : c ∉ a) (b : Bytes) : (a ++ c :: b).takeWhile (· != c) = a := by
  have hall : ∀ x ∈ a, (x != c) = true := fun x hx => bne_iff_ne.mpr (fun hxc => h (hxc ▸ hx))
  rw [List.takeWhile_append_of_pos hall, List.takeWhile_cons_of_neg (by simp), List.append_nil]

theorem takeWhile_none (h : c ∉ a) : a.takeWhile (· != c) = a :=
  List.takeWhile_eq_self_iff.mpr fun _ hx => bne_iff_ne.mpr (fun hxc => h (hxc ▸ hx))

theorem dropWhile_sep (h : c ∉ a) (b : Bytes) : (a ++ c :: b).dropWhile (· != c) = c :: b := by
  have hall : ∀ x ∈ a, (x != c) = true := fun x hx => bne_iff_ne.mpr (fun hxc => h (hxc ▸ hx))
  rw [List.dropWhile_append_of_pos hall, List.dropWhile_cons_of_neg (by simp)]

theorem cookieOf_pair (hname : 61 ∉ name) (hpair : pairOf val = name ++ 61 :: value) :
    cookieOf val = some (name, value) := by
  have hin : 61 ∈ name ++ 61 :: value := List.mem_append_right _ List.mem_cons_self
  rw [cookieOf, hpair, if_pos hin, takeWhile_sep hname, dropWhile_sep hname]
  rfl

theorem cookieOf_none (h : 61 ∉ pairOf val) : cookieOf val = none := if_neg h

theorem split1_none (h : c ∉ a) : split1 a [c] = .ok none := by
  have hidx : a.findIdx [c].contains = a.length :=
    List.findIdx_eq_length_of_false fun x hx => by
      simp only [List.contains_eq_mem, List.mem_singleton, decide_eq_false_iff_not]
      exact fun hxc => h (hxc ▸ hx)
  simp only [split1, hidx, if_pos (Nat.le_refl _)]

theorem split1_sep (h : c ∉ a) (b : Bytes) : split1 (a ++ c :: b) [c] =
    if (b.dropWhile (· == c)).isEmpty then .error .undefined
    else .ok (some (a, b.dropWhile (· == c))) := by
  have hany : [c].contains = (· == c) := by
    funext x
    rw [List.contains_cons, List.contains_nil, Bool.or_false]
  have hidx : (a ++ c :: b).findIdx (· == c) = a.length := by
    have hfind := find_append_of_not_mem h (c :: b)
    rw [find, find, List.findIdx_cons, beq_self_eq_true] at hfind
    exact hfind
  have hlt : ¬(a ++ c :: b).length ≤ a.length := by
    rw [List.length_append, List.length_cons]
    omega
  have hdrop : (c :: b).dropWhile (· == c) = b.dropWhile (· == c) :=
    List.dropWhile_cons_of_pos (beq_self_eq_true c)
  simp only [split1, hany, hidx, if_neg hlt, List.drop_left, List.take_left, hdrop]

/-! ## One header -/

/-- The entry that `set_cookies` makes of the value of one header. -/
def entryOf (val : Bytes) : Except Trap (Bytes × Bytes) := do
  let tv := (← split1 val [59]).getD ([], [])
  return (← split1 tv.1 [61]).getD ([], tv.2)

theorem setCookies_cookie (hs : Head) : setCookies jar ((setCookie, val) :: hs) =
    (entryOf val).bind fun kv => setCookies (jar.assign kv.1 kv.2) hs := by
  have hsemi : bytes ";" = [59] := by decide
  have hequal : bytes "=" = [61] := by decide
  rw [setCookies, setCookie, if_pos rfl, hsemi, hequal, entryOf]
  cases split1 val [59] with
  | error t => rfl
  | ok tv =>
    simp only [bind, Except.bind]
    cases split1 (tv.getD ([], [])).1 [61] <;> rfl

theorem setCookies_other {h : Bytes × Bytes} (hname : h.1 ≠ setCookie) (hs : Head) :
    setCookies jar (h :: hs) = setCookies jar hs := if_neg hname

theorem entryOf_bare (h : 59 ∉ val) : entryOf val = .ok ([], []) := by
  rw [entryOf, split1_none h]
  rfl

/-- The entry of a header with `;`. -/
theorem entryOf_sep (h : 59 ∉ a) (rest : Bytes) : entryOf (a ++ 59 :: rest) =
    if (rest.dropWhile (· == 59)).isEmpty then .error .undefined
    else (split1 a [61]).map fun kv => kv.getD ([], rest.dropWhile (· == 59)) := by
  rw [entryOf, split1_sep h]
  by_cases hrest : (rest.dropWhile (· == 59)).isEmpty = true
  · rw [if_pos hrest, if_pos hrest]
    rfl
  · rw [if_neg hrest, if_neg hrest]
    change (split1 a [61]).bind _ = _
    cases split1 a [61] <;> rfl

theorem dropWhile_head (h : ∃ x ∈ a.head?, x ≠ c) : a.dropWhile (· == c) = a := by
  obtain ⟨x, hx, hne⟩ := h
  cases a with
  | nil => cases hx
  | cons y a =>
    obtain rfl : y = x := Option.some.inj hx
    exact List.dropWhile_cons_of_neg (by simpa using hne)

theorem head_of_dropWhile (hne : a.dropWhile (· == c) ≠ []) (heq : a.dropWhile (· == c) = a) :
    ∃ x ∈ a.head?, x ≠ c := by
  cases a with
  | nil => exact absurd rfl hne
  | cons y a =>
    refine ⟨y, rfl, fun hyc => ?_⟩
    have hskip : (y :: a).dropWhile (· == c) = a.dropWhile (· == c) :=
      List.dropWhile_cons_of_pos (beq_iff_eq.mpr hyc)
    rw [hskip] at heq
    have hle : (a.dropWhile (· == c)).length ≤ a.length := (List.dropWhile_suffix _).length_le
    rw [heq, List.length_cons] at hle
    exact absurd hle (Nat.not_succ_le_self _)

theorem pairOf_sep (h : 59 ∉ a) (rest : Bytes) : pairOf (a ++ 59 :: rest) = a :=
  takeWhile_sep h rest

theorem entry_of_wellFormed (h : WellFormed val) :
    ∃ kv, entryOf val = .ok kv ∧ cookieOf val = some kv := by
  obtain rfl | ⟨name, value, rest, rfl, hname, hname', hvalue, hhead, b, hb, hne⟩ := h
  · exact ⟨([], []), entryOf_bare (by decide), by decide⟩
  have hpair : 59 ∉ name ++ 61 :: value := by
    rw [List.mem_append, List.mem_cons]
    exact fun h => h.elim hname' fun h => h.elim (by decide) hvalue
  have hrest : ¬(rest.dropWhile (· == 59)).isEmpty = true := by
    rw [List.isEmpty_iff, List.dropWhile_eq_nil_iff]
    exact fun hall => hne (beq_iff_eq.mp (hall b hb))
  have hfull : ¬value.isEmpty = true := by
    obtain ⟨x, hx, -⟩ := hhead
    rw [List.isEmpty_iff]
    rintro rfl
    cases hx
  refine ⟨(name, value), ?_, cookieOf_pair hname (pairOf_sep hpair rest)⟩
  rw [entryOf_sep hpair, if_neg hrest, split1_sep hname, dropWhile_head hhead, if_neg hfull]
  rfl

theorem wellFormed_of_entry {kv : Bytes × Bytes} (hentry : entryOf val = .ok kv)
    (hcookie : cookieOf val = some kv) : WellFormed val := by
  have hequal : 61 ∈ pairOf val := by
    by_contra hnone
    rw [cookieOf_none hnone] at hcookie
    cases hcookie
  obtain ⟨name, value, hpair, hname⟩ := List.eq_append_cons_of_mem hequal
  rw [cookieOf_pair hname hpair] at hcookie
  obtain rfl := Option.some.inj hcookie
  by_cases hsemi : 59 ∈ val
  · obtain ⟨a, rest, hval, ha⟩ := List.eq_append_cons_of_mem hsemi
    have ha' : a = name ++ 61 :: value := by rw [← hpair, hval, pairOf_sep ha]
    rw [hval, entryOf_sep ha, ha', split1_sep hname] at hentry
    rw [ha', List.mem_append, List.mem_cons, not_or, not_or] at ha
    by_cases hrest : (rest.dropWhile (· == 59)).isEmpty = true
    · rw [if_pos hrest] at hentry
      cases hentry
    rw [if_neg hrest] at hentry
    by_cases hfull : (value.dropWhile (· == 61)).isEmpty = true
    · rw [if_pos hfull] at hentry
      cases hentry
    rw [if_neg hfull] at hentry
    have hvalue : value.dropWhile (· == 61) = value := congrArg Prod.snd (Except.ok.inj hentry)
    rw [List.isEmpty_iff] at hfull
    rw [List.isEmpty_iff, List.dropWhile_eq_nil_iff] at hrest
    obtain ⟨b, hb⟩ := not_forall.mp hrest
    obtain ⟨hb, hne⟩ := Classical.not_imp.mp hb
    exact .inr ⟨name, value, rest, by rw [hval, ha'], hname, ha.1, ha.2.2,
      head_of_dropWhile hfull hvalue, b, hb, fun h => hne (beq_iff_eq.mpr h)⟩
  · rw [entryOf_bare hsemi] at hentry
    obtain ⟨rfl, rfl⟩ := Prod.mk.inj (Except.ok.inj hentry)
    rw [pairOf, takeWhile_none hsemi] at hpair
    exact .inl hpair

/-! ## All headers -/

theorem ownValue_other {h : Bytes × Bytes} (hname : h.1 ≠ setCookie) (k : Bytes) :
    ownValue k h = none := if_neg hname

theorem ownValue_cookie {kv : Bytes × Bytes} (h : cookieOf val = some kv) (k : Bytes) :
    ownValue k (setCookie, val) = if k = kv.1 then some kv.2 else none := by
  rw [ownValue, if_pos rfl, h]

theorem setsCookies_of_wellFormed {hs : Head} (h : ∀ val, (setCookie, val) ∈ hs → WellFormed val)
    (jar : StrMap) : SetsCookies jar hs := by
  induction hs generalizing jar with
  | nil => exact ⟨jar, rfl, fun k => rfl⟩
  | cons e hs ih =>
    have hrest := ih (fun val hval => h val (List.mem_cons_of_mem _ hval))
    by_cases hname : e.1 = setCookie
    · obtain ⟨name, val⟩ := e
      obtain rfl : name = setCookie := hname
      obtain ⟨kv, hentry, hcookie⟩ := entry_of_wellFormed (h val List.mem_cons_self)
      obtain ⟨jar', hjar', hfind⟩ := hrest (jar.assign kv.1 kv.2)
      refine ⟨jar', by rw [setCookies_cookie, hentry]; exact hjar', fun k => ?_⟩
      rw [hfind, lastValue, ownValue_cookie hcookie, StrMap.find_assign, Option.or_assoc]
      by_cases hk : k = kv.1
      · rw [if_pos hk, if_pos hk]
        rfl
      · rw [if_neg hk, if_neg hk]
        rfl
    · obtain ⟨jar', hjar', hfind⟩ := hrest jar
      refine ⟨jar', by rw [setCookies_other hname]; exact hjar', fun k => ?_⟩
      rw [hfind, lastValue, ownValue_other hname, Option.or_none]

/-- One header that fills an empty jar as claimed is well-formed. -/
theorem wellFormed_of_single (h : SetsCookies [] [(setCookie, val)]) : WellFormed val := by
  obtain ⟨jar', hjar', hfind⟩ := h
  rw [setCookies_cookie] at hjar'
  cases hentry : entryOf val with
  | error t => rw [hentry] at hjar'; cases hjar'
  | ok kv =>
    rw [hentry] at hjar'
    obtain rfl := Except.ok.inj hjar'
    have hown := hfind kv.1
    rw [StrMap.find_assign, if_pos rfl] at hown
    change some kv.2 = ((none.or (ownValue kv.1 (setCookie, val))).or none) at hown
    rw [Option.none_or, Option.or_none] at hown
    cases hcookie : cookieOf val with
    | none =>
      rw [ownValue, if_pos rfl, hcookie] at hown
      cases hown
    | some kv' =>
      rw [ownValue_cookie hcookie] at hown
      by_cases hk : kv.1 = kv'.1
      · rw [if_pos hk] at hown
        obtain rfl : kv = kv' := Prod.ext hk (Option.some.inj hown)
        exact wellFormed_of_entry hentry hcookie
      · rw [if_neg hk] at hown
        cases hown

/-- Every list of these headers fills every jar as claimed if and only if each of them that
sets a cookie is well-formed. -/
theorem setsCookies_iff (hs : Head) : (∀ hs' : Head, hs' ⊆ hs → ∀ jar, SetsCookies jar hs') ↔
    ∀ val, (setCookie, val) ∈ hs → WellFormed val := by
  constructor
  · intro h val hval
    have hsub : [(setCookie, val)] ⊆ hs := List.cons_subset.mpr ⟨hval, List.nil_subset _⟩
    exact wellFormed_of_single (h [(setCookie, val)] hsub [])
  · intro h hs' hsub jar
    exact setsCookies_of_wellFormed (fun val hval => h val (hsub hval)) jar

/-- A header without attributes. -/
theorem not_setsCookies : ¬∀ hs jar, SetsCookies jar hs := by
  intro h
  obtain ⟨jar', hjar', hfind⟩ := h [(setCookie, bytes "ck=1")] []
  have hempty : setCookies [] [(setCookie, bytes "ck=1")] = .ok [([], [])] := by decide
  rw [hempty] at hjar'
  obtain rfl := Except.ok.inj hjar'
  exact absurd (hfind (bytes "ck")) (by decide)

end CppSnippets.Wap
