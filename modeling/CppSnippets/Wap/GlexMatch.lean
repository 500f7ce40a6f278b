import CppSnippets.Lib.Glob
import CppSnippets.Wap.Glex

/-!
# What `globex` finds

`psearch` finds the first match of a pattern. `globex` finds the first match of
the half before the `$`, the first match of the half behind it from there on, and
then, backwards, the last match of the first half between them: this search cannot
fail, since the first match lies there.
-/
namespace CppSnippets.Wap.GlexMatch

open CppSnippets.Lib

variable {pat cont : Bytes}

/-! ## Pieces of a pattern -/

theorem not_mem_take_find (c : Byte) (s : Bytes) : c ∉ s.take (find c s) := by
  induction s with
  | nil => exact List.not_mem_nil
  | cons b s ih =>
    by_cases hb : b = c
    · subst hb
      simp [find, List.findIdx_cons]
    · have hfind : find c (b :: s) = find c s + 1 := by
        rw [find, List.findIdx_cons, beq_eq_false_iff_ne.mpr hb]
        rfl
      rw [hfind, List.take_succ_cons, List.mem_cons]
      exact fun h => h.elim (fun heq => hb heq.symm) ih

theorem drop_find {c : Byte} {s : Bytes} (h : find c s < s.length) :
    s.drop (find c s) = c :: s.drop (find c s + 1) := by
  rw [List.drop_eq_getElem_cons h]
  congr 1
  have hb := @List.findIdx_getElem _ (· == c) s h
  exact eq_of_beq hb

/-- `std::search` finds the first occurrence. -/
theorem firstFrom_search {k : Bytes} (hk : k ≠ []) (b : Nat) : FirstFrom k cont b
    (if cont.length ≤ b + search k (cont.drop b) then none
      else some (b + search k (cont.drop b))) := by
  have hpos := List.length_pos_iff.mpr hk
  have hle : ∀ i, b ≤ i → i + k.length ≤ cont.length → k <+: cont.drop i →
      b + search k (cont.drop b) ≤ i := by
    intro i hbi hlen hp
    have hlt : i - b < (cont.drop b).length := by
      rw [List.length_drop]
      omega
    have hdrop : (cont.drop b).drop (i - b) = cont.drop i := by
      rw [List.drop_drop, Nat.add_sub_cancel' hbi]
    have := search_le_at hlt (hdrop ▸ hp)
    omega
  split
  · rename_i hnone
    rintro i ⟨hbi, hlen, hp⟩
    have := hle i hbi hlen hp
    omega
  · rename_i hsome
    have hlt : search k (cont.drop b) < (cont.drop b).length := by
      rw [List.length_drop]
      omega
    have hend := search_add_le hlt
    have hp := prefix_at_search hlt
    rw [List.length_drop] at hend
    rw [List.drop_drop] at hp
    exact ⟨⟨Nat.le_add_right _ _, by omega, hp⟩, fun i ⟨h1, h2, h3⟩ => hle i h1 h2 h3⟩

/-! ## The searches -/

/-- `_matchres` ends at the least end of what is left of the pattern. -/
theorem matchres_spec {n b : Nat} (hn : pat.length ≤ n) (hb : b ≤ cont.length) :
    LeastSome (GlobAt 42 (42 :: pat) cont b) (matchres cont n pat b) := by
  induction n generalizing pat b with
  | zero =>
    have hnil : pat = [] := List.length_eq_zero_iff.mp (Nat.le_zero.mp hn)
    subst hnil
    exact leastEnd_nil hb
  | succ n ih =>
    rw [matchres]
    by_cases hnil : pat = []
    · subst hnil
      exact leastEnd_nil hb
    have hpos := List.length_pos_iff.mpr hnil
    rw [if_neg (by simp [hnil])]
    dsimp only
    have hle := find_le 42 pat
    by_cases hstar : find 42 pat = 0
    · rw [if_pos hstar]
      have hcons := @drop_find 42 pat (by omega)
      rw [hstar, List.drop_zero] at hcons
      have hrest := @ih (pat.drop 1) b (by rw [List.length_drop]; omega) hb
      have hgoal := leastEnd_star hrest
      rw [show (42 : Byte) :: pat.drop 1 = pat from hcons.symm] at hgoal
      exact hgoal
    · rw [if_neg hstar]
      have hlit := not_mem_take_find 42 pat
      have hne : pat.take (find 42 pat) ≠ [] := by
        rw [Ne, List.take_eq_nil_iff]
        exact fun h => h.elim hstar hnil
      have hlen : (pat.take (find 42 pat)).length = find 42 pat := by
        rw [List.length_take, Nat.min_eq_left hle]
      have hfirst := @firstFrom_search cont _ hne b
      split
      · rename_i hnone
        rw [if_pos hnone] at hfirst
        have hgoal := leastEnd_none (q := pat.drop (find 42 pat)) hlit hfirst
        rw [List.take_append_drop] at hgoal
        exact hgoal
      · rename_i hsome
        rw [if_neg hsome] at hfirst
        have hend := hfirst.1.2.1
        rw [hlen] at hend
        by_cases hlast : find 42 pat = pat.length
        · rw [List.drop_of_length_le (by omega)]
          have hgoal := leastEnd_last hlit hfirst
          rw [hlen] at hgoal
          rw [hlast, List.take_length] at hgoal ⊢
          cases n <;> exact hgoal
        · have hcons := @drop_find 42 pat (by omega)
          have hrest := @ih (pat.drop (find 42 pat + 1))
            (b + search (pat.take (find 42 pat)) (cont.drop b) + find 42 pat)
            (by rw [List.length_drop]; omega) hend
          have hgoal := leastEnd_piece (q := pat.drop (find 42 pat + 1)) hlit hfirst
            (by rw [hlen]; exact hrest)
          rw [← hcons, List.take_append_drop] at hgoal
          exact hgoal

/-- `psearch` finds the first match. -/
theorem psearch_spec (hpat : pat ≠ []) (cont : Bytes) :
    FirstMatch 42 pat cont (psearch pat cont) := by
  have hle := find_le 42 pat
  have hpos := List.length_pos_iff.mpr hpat
  have hlit := not_mem_take_find 42 pat
  rw [psearch]
  dsimp only
  by_cases hall : pat.length ≤ find 42 pat
  · rw [if_pos hall]
    rw [List.take_of_length_le hall] at hlit
    have hfirst := @firstFrom_search cont _ hpat 0
    rw [List.drop_zero, Nat.zero_add] at hfirst
    split
    · rename_i hnone
      rw [if_pos hnone] at hfirst
      have hgoal := firstMatch_none (q := []) hlit hfirst
      rw [List.append_nil] at hgoal
      exact hgoal
    · rename_i hsome
      rw [if_neg hsome] at hfirst
      exact firstMatch_letters hlit hfirst
  · rw [if_neg hall]
    have hcons := @drop_find 42 pat (by omega)
    by_cases hstar : find 42 pat = 0
    · rw [if_pos hstar]
      rw [hstar, List.drop_zero] at hcons
      have hspec := @matchres_spec (pat.drop 1) cont pat.length 0 (by rw [List.length_drop]; omega)
        (Nat.zero_le _)
      have hgoal := firstMatch_star hspec
      rw [show (42 : Byte) :: pat.drop 1 = pat from hcons.symm] at hgoal
      exact hgoal
    · rw [if_neg hstar]
      have hne : pat.take (find 42 pat) ≠ [] := by
        rw [Ne, List.take_eq_nil_iff]
        exact fun h => h.elim hstar hpat
      have hlen : (pat.take (find 42 pat)).length = find 42 pat := by
        rw [List.length_take, Nat.min_eq_left hle]
      have hfirst := @firstFrom_search cont _ hne 0
      rw [List.drop_zero, Nat.zero_add] at hfirst
      split
      · rename_i hnone
        rw [if_pos hnone] at hfirst
        have hgoal := firstMatch_none (q := pat.drop (find 42 pat)) hlit hfirst
        rw [List.take_append_drop] at hgoal
        exact hgoal
      · rename_i hsome
        rw [if_neg hsome] at hfirst
        have hend := hfirst.1.2.1
        rw [hlen] at hend
        have hspec := @matchres_spec (pat.drop (find 42 pat + 1)) cont pat.length
          (search (pat.take (find 42 pat)) cont + find 42 pat) (by rw [List.length_drop]; omega) hend
        have hgoal := firstMatch_piece hlit hfirst (by rw [hlen]; exact hspec)
        rw [← hcons, List.take_append_drop] at hgoal
        exact hgoal

/-- For every pattern that is not empty and every content: the result is null if and
only if nothing matches; and an interval is the result if and only if it matches and
no match begins or ends before it. -/
theorem psearch_exact (pat cont : Bytes) (hpat : pat ≠ []) :
    (psearch pat cont = none ↔ ∀ i j, ¬GlobAt 42 pat cont i j) ∧
    ∀ b e, psearch pat cont = some (b, e) ↔
      GlobAt 42 pat cont b e ∧ ∀ i j, GlobAt 42 pat cont i j → b ≤ i ∧ e ≤ j := by
  have hspec := psearch_spec hpat cont
  constructor
  · constructor
    · intro hnone
      rw [hnone] at hspec
      exact hspec
    · intro hno
      cases hres : psearch pat cont with
      | none => rfl
      | some r =>
        rw [hres] at hspec
        exact absurd hspec.1 (hno r.1 r.2)
  · intro b e
    constructor
    · intro hsome
      rw [hsome] at hspec
      exact hspec
    · rintro ⟨hmatch, hleast⟩
      cases hres : psearch pat cont with
      | none =>
        rw [hres] at hspec
        exact absurd hmatch (hspec b e)
      | some r =>
        rw [hres] at hspec
        obtain ⟨hr, hrleast⟩ := hspec
        have hle := hleast _ _ hr
        have hge := hrleast _ _ hmatch
        have hb : r.1 = b := Nat.le_antisymm hge.1 hle.1
        have he : r.2 = e := Nat.le_antisymm hge.2 hle.2
        exact congrArg some (Prod.ext hb he)

/-- Stars in front, behind, and two in a row. -/
theorem psearch_exact_stars : GlobAt 42 (bytes "b**c*") (bytes "aabxcxc") 2 5 ∧
    ∀ i j, GlobAt 42 (bytes "b**c*") (bytes "aabxcxc") i j → 2 ≤ i ∧ 5 ≤ j :=
  ((psearch_exact (bytes "b**c*") (bytes "aabxcxc") (by decide)).2 2 5).mp (by decide +kernel)

/-! ## `globex` on a pattern with two halves -/

/-- Where the result of `globex` begins and ends. -/
def globexAt (start stop cont : Bytes) : Except Trap (Option (Nat × Nat)) :=
  match psearch start cont with
  | none => .ok none
  | some res0 =>
    match psearch stop (cont.drop res0.2) with
    | none => .ok none
    | some res1 =>
      let stopBegin := res0.2 + res1.1
      match psearch start.reverse (slice cont res0.1 stopBegin).reverse with
      | none => .error .assertion
      | some back => .ok (some (stopBegin - back.1, stopBegin))

variable {start stop : Bytes}

theorem globex_eq (hstart : start ≠ []) (hstop : stop ≠ []) (hdollar : 36 ∉ start) (cont : Bytes) :
    globex (start ++ 36 :: stop) cont =
      (globexAt start stop cont).map (Option.map fun r => slice cont r.1 r.2) := by
  have hfind : find 36 (start ++ 36 :: stop) = start.length := by
    rw [find_append_of_not_mem hdollar]
    rfl
  have hdrop : (start ++ 36 :: stop).drop (start.length + 1) = stop := by
    rw [← List.drop_drop, List.drop_left]
    rfl
  have hs : start.isEmpty = false := List.isEmpty_eq_false_iff.mpr hstart
  have ht : stop.isEmpty = false := List.isEmpty_eq_false_iff.mpr hstop
  rw [globex, hfind]
  dsimp only
  rw [if_neg (by simp), List.take_left, hdrop, hs, ht]
  simp only [Bool.false_eq_true, if_false, globexAt]
  cases psearch start cont with
  | none => rfl
  | some res0 =>
    dsimp only
    cases psearch stop (cont.drop res0.2) with
    | none => rfl
    | some res1 =>
      dsimp only
      cases psearch start.reverse (slice cont res0.1 (res0.2 + res1.1)).reverse <;> rfl

theorem globAt_slice {a c b e : Nat} (hac : a ≤ c) (hc : c ≤ cont.length) :
    GlobAt 42 pat (slice cont a c) b e ↔ GlobAt 42 pat cont (a + b) (a + e) ∧ a + e ≤ c := by
  have hlen : c - a ≤ (cont.drop a).length := by
    rw [List.length_drop]
    omega
  rw [slice, GlobAt.take hlen, GlobAt.drop (by omega)]
  constructor
  · rintro ⟨h1, h2⟩
    exact ⟨h1, by omega⟩
  · rintro ⟨h1, h2⟩
    exact ⟨h1, by omega⟩

/-- `i` is the greatest end of a match of `start` between `b` and `c`. -/
structure LastEnd (start cont : Bytes) (b c i : Nat) : Prop where
  ends : ∃ b', b ≤ b' ∧ GlobAt 42 start cont b' i
  inside : i ≤ c
  greatest : ∀ b' e', b ≤ b' → GlobAt 42 start cont b' e' → e' ≤ c → e' ≤ i

/-- The search backwards finds the last match: there is one. -/
theorem back_spec (hstart : start ≠ []) {b e c : Nat} (hm : GlobAt 42 start cont b e) (hec : e ≤ c)
    (hc : c ≤ cont.length) : ∃ back, psearch start.reverse (slice cont b c).reverse = some back ∧
      LastEnd start cont b c (c - back.1) := by
  have hbc : b ≤ c := Nat.le_trans hm.1 hec
  have hlen : (slice cont b c).length = c - b := by
    rw [slice, List.length_take, List.length_drop]
    omega
  have hback : ∀ b' e', b ≤ b' → GlobAt 42 start cont b' e' → e' ≤ c →
      GlobAt 42 start.reverse (slice cont b c).reverse (c - e') (c - b') := by
    intro b' e' hb' hg he'
    have hpart : GlobAt 42 start (slice cont b c) (b' - b) (e' - b) := by
      have hle := hg.1
      rw [globAt_slice hbc hc, show b + (b' - b) = b' by omega, show b + (e' - b) = e' by omega]
      exact ⟨hg, he'⟩
    have hrev := hpart.reverse
    have hle := hg.1
    rw [hlen, show c - b - (e' - b) = c - e' by omega, show c - b - (b' - b) = c - b' by omega]
      at hrev
    exact hrev
  have hne : start.reverse ≠ [] := by simpa using hstart
  have hspec := psearch_spec hne (slice cont b c).reverse
  cases hp : psearch start.reverse (slice cont b c).reverse with
  | none =>
    rw [hp] at hspec
    exact absurd (hback b e (Nat.le_refl _) hm hec) (hspec _ _)
  | some back =>
    rw [hp] at hspec
    obtain ⟨hg, hleast⟩ := hspec
    have hend := hg.2.1
    rw [List.length_reverse, hlen] at hend
    have hfwd := hg.of_reverse
    have hle := hg.1
    rw [hlen, globAt_slice hbc hc, show b + (c - b - back.1) = c - back.1 by omega] at hfwd
    refine ⟨back, rfl, ⟨_, Nat.le_add_right _ _, hfwd.1⟩, Nat.sub_le _ _, ?_⟩
    intro b' e' hb' hg' he'
    have := (hleast _ _ (hback b' e' hb' hg' he')).1
    omega

/-- What the search behind a place says about the whole content. -/
theorem globAt_behind {e c d : Nat} (he : e ≤ cont.length) (hec : e ≤ c) :
    GlobAt 42 stop cont c d → GlobAt 42 stop (cont.drop e) (c - e) (d - e) := by
  intro hs
  have hle := hs.1
  rw [GlobAt.drop he, show e + (c - e) = c by omega, show e + (d - e) = d by omega]
  exact hs

theorem behind_none (hstop : stop ≠ []) {e : Nat} (he : e ≤ cont.length)
    (h : psearch stop (cont.drop e) = none) {c d : Nat} (hec : e ≤ c) : ¬GlobAt 42 stop cont c d := by
  intro hs
  have hspec := psearch_spec hstop (cont.drop e)
  rw [h] at hspec
  exact hspec _ _ (globAt_behind he hec hs)

theorem behind_some (hstop : stop ≠ []) {e : Nat} (he : e ≤ cont.length) {r : Nat × Nat}
    (h : psearch stop (cont.drop e) = some r) : GlobAt 42 stop cont (e + r.1) (e + r.2) ∧
      ∀ c d, e ≤ c → GlobAt 42 stop cont c d → e + r.1 ≤ c := by
  have hspec := psearch_spec hstop (cont.drop e)
  rw [h] at hspec
  obtain ⟨hs, hleast⟩ := hspec
  rw [GlobAt.drop he] at hs
  refine ⟨hs, fun c d hec hs' => ?_⟩
  have hle := (hleast _ _ (globAt_behind he hec hs')).1
  omega

/-- For every pattern with two halves that are not empty and every content: the
search backwards never fails; the result is null if and only if one of the two
forward searches fails; and when `start` has a match and `stop` one behind it, the
result ends where the first such match of `stop` begins, and begins at the
greatest end of a match of `start` behind the begin of its first match. -/
theorem globex_consistent (start stop cont : Bytes) (hstart : start ≠ []) (hstop : stop ≠ [])
    (hdollar : 36 ∉ start) :
    globex (start ++ 36 :: stop) cont =
      (globexAt start stop cont).map (Option.map fun r => slice cont r.1 r.2) ∧
    (∀ t, globexAt start stop cont ≠ .error t) ∧
    (globexAt start stop cont = .ok none ↔ psearch start cont = none ∨
      ∃ b e, psearch start cont = some (b, e) ∧ psearch stop (cont.drop e) = none) ∧
    ((∃ b e c d, GlobAt 42 start cont b e ∧ e ≤ c ∧ GlobAt 42 stop cont c d) →
      ∃ b e i c d, globexAt start stop cont = .ok (some (i, c)) ∧ i ≤ c ∧ c ≤ cont.length ∧
        FirstMatch 42 start cont (some (b, e)) ∧ e ≤ c ∧ GlobAt 42 stop cont c d ∧
        (∀ c' d', e ≤ c' → GlobAt 42 stop cont c' d' → c ≤ c') ∧ LastEnd start cont b c i) := by
  have h0 := psearch_spec hstart cont
  refine ⟨globex_eq hstart hstop hdollar cont, ?_⟩
  cases hp0 : psearch start cont with
  | none =>
    rw [hp0] at h0
    have heq : globexAt start stop cont = .ok none := by rw [globexAt, hp0]
    rw [heq]
    refine ⟨fun t h => (by cases h), ⟨fun _ => .inl rfl, fun _ => rfl⟩, ?_⟩
    rintro ⟨b, e, c, d, hm, _⟩
    exact absurd hm (h0 b e)
  | some res0 =>
    obtain ⟨b, e⟩ := res0
    rw [hp0] at h0
    have hee := h0.1.2.1
    cases hp1 : psearch stop (cont.drop e) with
    | none =>
      have heq : globexAt start stop cont = .ok none := by
        rw [globexAt, hp0]
        dsimp only
        rw [hp1]
      rw [heq]
      refine ⟨fun t h => (by cases h), ⟨fun _ => .inr ⟨b, e, rfl, hp1⟩, fun _ => rfl⟩, ?_⟩
      rintro ⟨b', e', c, d, hm, hec, hs⟩
      have hle := (h0.2 b' e' hm).2
      exact absurd hs (behind_none hstop hee hp1 (Nat.le_trans hle hec))
    | some res1 =>
      obtain ⟨hs, hleast⟩ := behind_some hstop hee hp1
      have hc : e + res1.1 ≤ cont.length := Nat.le_trans hs.1 hs.2.1
      obtain ⟨back, hback, hlast⟩ := back_spec hstart h0.1 (Nat.le_add_right e res1.1) hc
      have heq : globexAt start stop cont =
          .ok (some (e + res1.1 - back.1, e + res1.1)) := by
        rw [globexAt, hp0]
        dsimp only
        rw [hp1]
        dsimp only
        rw [hback]
      rw [heq]
      refine ⟨fun t h => (by cases h), ⟨fun h => (by cases h), ?_⟩, fun _ => ?_⟩
      · rintro (h | ⟨b', e', h, h'⟩)
        · cases h
        · cases h
          rw [hp1] at h'
          cases h'
      · exact ⟨b, e, _, _, _, rfl, hlast.inside, hc, h0, Nat.le_add_right _ _, hs, hleast, hlast⟩

/-- Between the last `<a` and the first `b` behind the first one. -/
theorem globex_consistent_two : globex (bytes "<a$b") (bytes "x<ay<azb<ab") = .ok (some (bytes "z")) ∧
    ∀ t, globexAt (bytes "<a") (bytes "b") (bytes "x<ay<azb<ab") ≠ .error t := by
  obtain ⟨_, hok, _⟩ := globex_consistent (bytes "<a") (bytes "b") (bytes "x<ay<azb<ab")
    (by decide) (by decide) (by decide)
  exact ⟨by decide +kernel, hok⟩

end CppSnippets.Wap.GlexMatch
