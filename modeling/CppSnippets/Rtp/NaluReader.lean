import CppSnippets.Rtp.Packet
import CppSnippets.Wap.Text

/-!
# `h264nalu_reader`

The units of a file lie between the start codes `00 00 00 01`, and the end of one is
the start code of the next. `begin` and `next` go from one unit that passes a filter to
the next one. A position is an offset in the file, and a header read behind the end of
the file is `none`.
-/
namespace CppSnippets.Rtp

def startbytes : List Byte := [0, 0, 0, 1]

/-- The two pointers of a range. -/
abbrev Range := Nat × Nat

namespace NaluReader

variable (f : List Byte) (type : Int)

/-! ## The reader -/

def find_ (e : Nat) : Range :=
  if e + 4 < f.length then (e, e + 4 + Wap.search startbytes (f.drop (e + 4))) else (e, e)

theorem find_fst (e : Nat) : (find_ f e).1 = e := by
  unfold find_
  split <;> rfl

variable {f} in
theorem find_ne {e : Nat} (h : (find_ f e).1 ≠ (find_ f e).2) :
    e + 4 < f.length ∧ e < (find_ f e).2 := by
  unfold find_ at h ⊢
  split
  · rename_i hlt
    exact ⟨hlt, by dsimp only; omega⟩
  · rename_i hlt
    rw [if_neg hlt] at h
    exact absurd rfl h

variable {f} in
theorem find_le {e : Nat} (h : (find_ f e).1 ≠ (find_ f e).2) : (find_ f e).2 ≤ f.length := by
  have hlt := (find_ne h).1
  have hle := Wap.search_le startbytes (f.drop (e + 4))
  rw [List.length_drop] at hle
  rw [find_, if_pos hlt]
  dsimp only
  omega

/-- `next` from a pointer, with the filter on the type (0 for all). -/
def next (p : Nat) : Option Range :=
  if _ : (find_ f p).1 = (find_ f p).2 then some (find_ f p)
  else
    match f[(find_ f p).1 + 4]? with
    | none => none
    | some hd =>
      if nalNri hd < 3 then next (find_ f p).2
      else if type ≠ 0 ∧ (nalType hd : Int) ≠ type then next (find_ f p).2
      else some (find_ f p)
termination_by f.length - p
decreasing_by
  all_goals
    have := find_ne ‹¬_›
    omega

variable {f type} in
/-- A range that is not empty ends behind the place that `next` was called from. -/
theorem next_progress {p : Nat} {r : Range} (h : next f type p = some r) (hr : r.1 ≠ r.2) :
    p < r.2 ∧ r.2 ≤ f.length := by
  fun_induction next f type p with
  | case1 p hend =>
    cases h
    exact absurd hend hr
  | case2 p hne hnone => cases h
  | case3 p hne hd hhd hnri ih => exact ⟨(find_ne hne).2.trans (ih h).1, (ih h).2⟩
  | case4 p hne hd hhd hnri htype ih => exact ⟨(find_ne hne).2.trans (ih h).1, (ih h).2⟩
  | case5 p hne hd hhd hnri htype =>
    cases h
    exact ⟨(find_ne hne).2, find_le hne⟩

/-- `for (r = begin(type); r[0] != r[1]; r = next(r, type))`, with the ranges it sees. -/
def enumerate (p : Nat) : Option (List Range) :=
  match _ : next f type p with
  | none => none
  | some r => if _ : r.1 = r.2 then some [] else (enumerate r.2).map (r :: ·)
termination_by f.length - p
decreasing_by
  have := next_progress ‹next f type p = some r› ‹¬r.1 = r.2›
  omega

/-! ## The units of a file -/

/-- There is a start code at an offset. -/
def CodeAt (i : Nat) : Prop := startbytes <+: f.drop i

instance (i : Nat) : Decidable (CodeAt f i) := inferInstanceAs (Decidable (_ <+: _))

/-- The start codes of a file, in order. -/
def codes : List Nat := (List.range f.length).filter fun i => CodeAt f i

/-- From each start code up to the next one or the end. -/
def units : List Range := (codes f).zip ((codes f).tail ++ [f.length])

/-- There is a byte behind the start code, and it passes the filter. -/
def passes (r : Range) : Bool :=
  match f[r.1 + 4]? with
  | none => false
  | some hd => r.1 + 4 < r.2 && 3 ≤ nalNri hd && (type = 0 || (nalType hd : Int) = type)

/-! ## From one start code to the next -/

variable {f} {p q i : Nat}

theorem CodeAt.bytes (h : CodeAt f i) :
    f[i]? = some 0 ∧ f[i + 1]? = some 0 ∧ f[i + 2]? = some 0 ∧ f[i + 3]? = some 1 := by
  obtain ⟨t, ht⟩ := h
  have hget : ∀ j, f[i + j]? = (startbytes ++ t)[j]? := by
    intro j
    rw [ht, List.getElem?_drop]
  exact ⟨hget 0, hget 1, hget 2, hget 3⟩

theorem CodeAt.add_le (h : CodeAt f i) : i + 4 ≤ f.length := by
  have hlen := h.length_le
  rw [List.length_drop] at hlen
  change 4 ≤ f.length - i at hlen
  omega

/-- Two start codes do not overlap. -/
theorem CodeAt.apart (h : CodeAt f p) (hi : p < i) (hi4 : i < p + 4) : ¬CodeAt f i := by
  intro h'
  obtain ⟨-, -, -, h3⟩ := h.bytes
  obtain ⟨h0', h1', h2', -⟩ := h'.bytes
  have hcases : i = p + 1 ∨ i = p + 2 ∨ i = p + 3 := by omega
  have hne : (some 0 : Option Byte) ≠ some 1 := by decide
  rcases hcases with rfl | rfl | rfl
  · exact hne (h2'.symm.trans h3)
  · exact hne (h1'.symm.trans h3)
  · exact hne (h0'.symm.trans h3)

/-- Where a unit that starts at a start code ends. -/
structure NextCode (f : List Byte) (p q : Nat) : Prop where
  after : p + 4 ≤ q
  le : q ≤ f.length
  code : q = f.length ∨ CodeAt f q
  first : ∀ i, p < i → i < q → ¬CodeAt f i

theorem find_nextCode (hp : CodeAt f p) (hlt : p + 4 < f.length) :
    NextCode f p (find_ f p).2 := by
  have hle := Wap.search_le startbytes (f.drop (p + 4))
  rw [List.length_drop] at hle
  rw [find_, if_pos hlt]
  constructor
  · dsimp only
    omega
  · dsimp only
    omega
  · by_cases hend : Wap.search startbytes (f.drop (p + 4)) < (f.drop (p + 4)).length
    · have hcode := Wap.prefix_at_search hend
      rw [List.drop_drop] at hcode
      exact .inr hcode
    · rw [List.length_drop] at hend
      refine .inl ?_
      dsimp only
      omega
  · intro i hpi hiq hcode
    by_cases hi4 : i < p + 4
    · exact hp.apart hpi hi4 hcode
    · have hat : startbytes <+: (f.drop (p + 4)).drop (i - (p + 4)) := by
        rw [List.drop_drop, Nat.add_sub_cancel' (by omega)]
        exact hcode
      have hadd := hcode.add_le
      have hearly := Wap.search_le_at (by rw [List.length_drop]; omega) hat
      dsimp only at hiq
      omega

/-- The start codes from an offset on. -/
def codesFrom (f : List Byte) (p : Nat) : List Nat :=
  (List.range' p (f.length - p)).filter fun i => CodeAt f i

def unitsFrom (f : List Byte) (p : Nat) : List Range :=
  (codesFrom f p).zip ((codesFrom f p).tail ++ [f.length])

theorem codesFrom_end : codesFrom f f.length = [] := by
  rw [codesFrom, Nat.sub_self]
  rfl

theorem codesFrom_next (hp : CodeAt f p) (hq : NextCode f p q) :
    codesFrom f p = p :: codesFrom f q := by
  have hafter := hq.after
  have hle := hq.le
  have hsplit : List.range' p (f.length - p) =
      p :: (List.range' (p + 1) (q - (p + 1)) ++ List.range' q (f.length - q)) := by
    have hlen : f.length - p = (q - (p + 1) + (f.length - q)) + 1 := by omega
    have hstart : q = p + 1 + (q - (p + 1)) := by omega
    rw [hlen, List.range'_succ, ← List.range'_append_1, ← hstart]
  have hnone : (List.range' (p + 1) (q - (p + 1))).filter (fun i => CodeAt f i) = [] := by
    refine List.filter_eq_nil_iff.mpr fun i hi => ?_
    rw [List.mem_range'_1] at hi
    simpa using hq.first i (by omega) (by omega)
  rw [codesFrom, hsplit, List.filter_cons_of_pos (by simpa using hp), List.filter_append, hnone]
  rfl

theorem codesFrom_head (hp : CodeAt f p) : ∃ t, codesFrom f p = p :: t := by
  have hle := hp.add_le
  have hlen : f.length - p = f.length - (p + 1) + 1 := by omega
  rw [codesFrom, hlen, List.range'_succ, List.filter_cons_of_pos (by simpa using hp)]
  exact ⟨_, rfl⟩

theorem unitsFrom_next (hp : CodeAt f p) (hq : NextCode f p q) :
    unitsFrom f p = (p, q) :: unitsFrom f q := by
  rw [unitsFrom, codesFrom_next hp hq]
  rcases hq.code with rfl | hcode
  · rw [unitsFrom, codesFrom_end]
    rfl
  · obtain ⟨t, ht⟩ := codesFrom_head hcode
    rw [unitsFrom, ht]
    rfl

theorem units_eq_unitsFrom : units f = unitsFrom f 0 := by
  have hcodes : codes f = codesFrom f 0 := by
    rw [codes, codesFrom, List.range_eq_range', Nat.sub_zero]
  rw [units, unitsFrom, hcodes]

/-! ## The filter -/

/-- The units from an offset on that pass the filter. -/
def wanted (f : List Byte) (type : Int) (p : Nat) : List Range :=
  (unitsFrom f p).filter (passes f type)

variable {type}

theorem wanted_next (hp : CodeAt f p) (hq : NextCode f p q) :
    wanted f type p =
      if passes f type (p, q) then (p, q) :: wanted f type q else wanted f type q := by
  rw [wanted, unitsFrom_next hp hq, List.filter_cons, wanted]

theorem wanted_end : wanted f type f.length = [] := by
  rw [wanted, unitsFrom, codesFrom_end]
  rfl

/-- A start code with nothing behind it makes no unit. -/
theorem wanted_last (hp : CodeAt f p) (hlt : ¬p + 4 < f.length) : wanted f type p = [] := by
  have hle := hp.add_le
  have hnext : NextCode f p f.length := by
    constructor
    · exact hle
    · exact le_rfl
    · exact .inl rfl
    · intro i hpi hi
      exact hp.apart hpi (by omega)
  have hnone : f[p + 4]? = none := List.getElem?_eq_none (by omega)
  have hfail : ¬passes f type (p, f.length) = true := by
    simp only [passes, hnone, Bool.false_eq_true, not_false_eq_true]
  rw [wanted_next hp hnext, if_neg hfail, wanted_end]

/-- Where two start codes follow one another, what would be the header of the first
unit is the first byte of the second code. -/
theorem nri_of_adjacent (hq : CodeAt f q) {hd : Byte} (hhd : f[q]? = some hd) : nalNri hd = 0 := by
  obtain ⟨h0, -, -, -⟩ := hq.bytes
  obtain rfl := Option.some.inj (hhd.symm.trans h0)
  rfl

theorem next_end (h : ¬p + 4 < f.length) : next f type p = some (p, p) := by
  have hfind : find_ f p = (p, p) := if_neg h
  rw [next, dif_pos (by rw [hfind]), hfind]

theorem next_unit (hfind : find_ f p = (p, q)) (hpq : p < q) {hd : Byte}
    (hhd : f[p + 4]? = some hd) :
    next f type p =
      if nalNri hd < 3 then next f type q
      else if type ≠ 0 ∧ (nalType hd : Int) ≠ type then next f type q
      else some (p, q) := by
  rw [next]
  simp only [hfind, hhd]
  exact dif_neg (by omega)

/-- A unit is returned if it passes, and skipped if it does not. -/
theorem next_passes (hlt : p + 4 < f.length) (hfind : find_ f p = (p, q))
    (hq : NextCode f p q) :
    next f type p = if passes f type (p, q) then some (p, q) else next f type q := by
  have hafter := hq.after
  have hle := hq.le
  obtain ⟨hd, hhd⟩ : ∃ hd, f[p + 4]? = some hd := ⟨_, List.getElem?_eq_getElem hlt⟩
  rw [next_unit hfind (by omega) hhd]
  have hnri : p + 4 = q → nalNri hd < 3 := by
    intro hpq
    rw [hpq] at hhd hlt
    rw [nri_of_adjacent (hq.code.resolve_left (by omega)) hhd]
    decide
  have hpass : passes f type (p, q) = true ↔
      ¬nalNri hd < 3 ∧ ¬(type ≠ 0 ∧ (nalType hd : Int) ≠ type) := by
    simp only [passes, hhd, Bool.and_eq_true, Bool.or_eq_true, decide_eq_true_eq]
    constructor
    · intro ⟨⟨_, h3⟩, htype⟩
      exact ⟨by omega, fun ⟨h0, hne⟩ => htype.elim h0 hne⟩
    · intro ⟨h3, htype⟩
      refine ⟨⟨?_, by omega⟩, ?_⟩
      · by_contra h
        exact h3 (hnri (by omega))
      · by_contra h
        exact htype (not_or.mp h)
  by_cases h3 : nalNri hd < 3
  · rw [if_pos h3, if_neg fun h => (hpass.mp h).1 h3]
  · rw [if_neg h3]
    by_cases htype : type ≠ 0 ∧ (nalType hd : Int) ≠ type
    · rw [if_pos htype, if_neg fun h => (hpass.mp h).2 htype]
    · rw [if_neg htype, if_pos (hpass.mpr ⟨h3, htype⟩)]

/-! ## The walk -/

/-- A range is the first unit wanted, or it is empty and there is none. -/
inductive FirstWanted (f : List Byte) (type : Int) (p : Nat) : Range → Prop
  | none (e : Nat) : wanted f type p = [] → FirstWanted f type p (e, e)
  | unit (b e : Nat) : b < e → p < e → e ≤ f.length → e = f.length ∨ CodeAt f e →
      wanted f type p = (b, e) :: wanted f type e → FirstWanted f type p (b, e)

theorem next_firstWanted (hp : p = f.length ∨ CodeAt f p) :
    ∃ r, next f type p = some r ∧ FirstWanted f type p r := by
  induction hn : f.length - p using Nat.strongRecOn generalizing p with
  | ind n ih =>
    by_cases hlt : p + 4 < f.length
    · have hcode : CodeAt f p := hp.resolve_left (by omega)
      obtain ⟨q, hfind⟩ : ∃ q, find_ f p = (p, q) := ⟨_, Prod.ext (find_fst f p) rfl⟩
      have hq : NextCode f p q := by
        have := find_nextCode hcode hlt
        rwa [hfind] at this
      have hafter := hq.after
      have hwanted : wanted f type p =
          if passes f type (p, q) then (p, q) :: wanted f type q else wanted f type q :=
        wanted_next hcode hq
      rw [next_passes hlt hfind hq]
      by_cases hpass : passes f type (p, q) = true
      · rw [if_pos hpass] at hwanted ⊢
        exact ⟨_, rfl, .unit p q (by omega) (by omega) hq.le hq.code hwanted⟩
      · rw [if_neg hpass] at hwanted ⊢
        obtain ⟨r, hr, hfirst⟩ := ih _ (by omega) hq.code rfl
        refine ⟨r, hr, ?_⟩
        cases hfirst with
        | none e h => exact .none e (hwanted.trans h)
        | unit b e hbe hqe hle hend h =>
          exact .unit b e hbe (by omega) hle hend (hwanted.trans h)
    · rw [next_end hlt]
      refine ⟨_, rfl, .none p ?_⟩
      rcases hp with rfl | hcode
      · exact wanted_end
      · exact wanted_last hcode hlt

theorem enumerate_wanted (hp : p = f.length ∨ CodeAt f p) :
    enumerate f type p = some (wanted f type p) := by
  induction hn : f.length - p using Nat.strongRecOn generalizing p with
  | ind n ih =>
    have hnext : ∃ r, next f type p = some r ∧ FirstWanted f type p r := next_firstWanted hp
    obtain ⟨r, hr, hfirst⟩ := hnext
    rw [enumerate]
    split
    · rename_i hnone
      rw [hnone] at hr
      cases hr
    · rename_i r' hsome
      obtain rfl := Option.some.inj (hsome.symm.trans hr)
      cases hfirst with
      | none e h => rw [dif_pos rfl, h]
      | unit b e hbe hpe hle hend h =>
        rw [dif_neg (by dsimp only; omega), ih _ (by omega) hend rfl, h]
        rfl

/-- `begin(type)` and `next` go through the units that pass, in order, whatever the file
holds behind its first start code. -/
theorem enumerate_eq (f : List Byte) (type : Int) (hfile : startbytes <+: f) :
    enumerate f type 0 = some ((units f).filter (passes f type)) := by
  have hcode : CodeAt f 0 := hfile
  rw [enumerate_wanted (.inr hcode), wanted, units_eq_unitsFrom]

/-- A file with two units of type 5, an empty one between them, one whose `nri` is too
low, and the beginning of a start code at its end. -/
def someFile : List Byte :=
  [0, 0, 0, 1, 0x65, 9] ++ [0, 0, 0, 1] ++ [0, 0, 0, 1, 0x25] ++ [0, 0, 0, 1, 0x65, 0, 0, 0]

theorem enumerate_someFile :
    enumerate someFile 5 0 = some ((units someFile).filter (passes someFile 5)) ∧
      (units someFile).filter (passes someFile 5) = [(0, 6), (15, 23)] :=
  ⟨enumerate_eq someFile 5 (by decide), by decide⟩

end NaluReader
end CppSnippets.Rtp
