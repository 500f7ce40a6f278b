import Mathlib.Data.List.Basic

/-!
# Patterns with stars

One letter of the pattern stands for any text, every other one for itself. A
match is a place in a text. The rules below take a pattern apart at its stars: a
piece without stars is taken at its first occurrence, and no other choice lets
the rest of the pattern begin earlier, so that the match that is found so begins
and ends before every other. Matches of the reversed pattern are the matches in
the reversed text.
-/
namespace CppSnippets.Lib

variable {α : Type*} {star : α}

/-- The pattern matches the text. -/
inductive Glob (star : α) : List α → List α → Prop
  | nil : Glob star [] []
  | skip {p s : List α} (t : List α) : Glob star p s → Glob star (star :: p) (t ++ s)
  | letter {a : α} {p s : List α} : a ≠ star → Glob star p s → Glob star (a :: p) (a :: s)

namespace Glob

variable {p q s t : List α}

theorem append (hp : Glob star p s) (hq : Glob star q t) : Glob star (p ++ q) (s ++ t) := by
  induction hp with
  | nil => exact hq
  | skip u _ ih =>
    rw [List.append_assoc]
    exact .skip u ih
  | letter ha _ ih => exact .letter ha ih

theorem of_append (h : Glob star (p ++ q) s) :
    ∃ u v, s = u ++ v ∧ Glob star p u ∧ Glob star q v := by
  induction p generalizing s with
  | nil => exact ⟨[], s, rfl, .nil, h⟩
  | cons a p ih =>
    cases h with
    | skip t h =>
      obtain ⟨u, v, rfl, hu, hv⟩ := ih h
      exact ⟨t ++ u, v, by rw [List.append_assoc], .skip t hu, hv⟩
    | letter ha h =>
      obtain ⟨u, v, rfl, hu, hv⟩ := ih h
      exact ⟨_ :: u, v, rfl, .letter ha hu, hv⟩

theorem letters (h : star ∉ p) : Glob star p s ↔ s = p := by
  constructor
  · intro hg
    induction hg with
    | nil => rfl
    | skip => exact absurd List.mem_cons_self h
    | letter _ _ ih => rw [ih fun hm => h (List.mem_cons_of_mem _ hm)]
  · rintro rfl
    induction s with
    | nil => exact .nil
    | cons a s ih =>
      refine .letter ?_ (ih fun hm => h (List.mem_cons_of_mem _ hm))
      rintro rfl
      exact h List.mem_cons_self

theorem reverse (h : Glob star p s) : Glob star p.reverse s.reverse := by
  induction h with
  | nil => exact .nil
  | skip t _ ih =>
    rw [List.reverse_cons, List.reverse_append]
    have hskip : Glob star [star] (t.reverse ++ []) := Glob.skip t.reverse Glob.nil
    rw [List.append_nil] at hskip
    exact ih.append hskip
  | letter ha _ ih =>
    rw [List.reverse_cons, List.reverse_cons]
    exact ih.append (.letter ha .nil)

end Glob

/-- The pattern matches the text from `b` up to `e`. -/
def GlobAt (star : α) (p s : List α) (b e : ℕ) : Prop :=
  b ≤ e ∧ e ≤ s.length ∧ Glob star p (s.extract b e)

namespace GlobAt

variable {p q s : List α} {b e : ℕ}

theorem append (hp : GlobAt star p s b e) {e' : ℕ} (hq : GlobAt star q s e e') :
    GlobAt star (p ++ q) s b e' := by
  obtain ⟨hbe, _, hg⟩ := hp
  obtain ⟨hee, he, hg'⟩ := hq
  refine ⟨by omega, he, ?_⟩
  have hcut : s.extract b e' = s.extract b e ++ s.extract e e' := by
    simp only [List.extract]
    rw [show e' - b = (e - b) + (e' - e) by omega, List.take_add, List.drop_drop,
      show b + (e - b) = e by omega]
  rw [hcut]
  exact hg.append hg'

theorem of_append (h : GlobAt star (p ++ q) s b e) :
    ∃ m, GlobAt star p s b m ∧ GlobAt star q s m e := by
  obtain ⟨hbe, he, hg⟩ := h
  obtain ⟨u, v, huv, hu, hv⟩ := hg.of_append
  have hlen := congrArg List.length huv
  simp only [List.extract, List.length_take, List.length_drop, List.length_append] at hlen
  have hcut : u = s.extract b (b + u.length) ∧ v = s.extract (b + u.length) e := by
    simp only [List.extract] at huv ⊢
    constructor
    · have htake := congrArg (List.take u.length) huv
      rw [List.take_left, List.take_take, Nat.min_eq_left (by omega)] at htake
      rw [Nat.add_sub_cancel_left, htake]
    · have hdrop := congrArg (List.drop u.length) huv
      rw [List.drop_left, List.drop_take, List.drop_drop] at hdrop
      rw [← hdrop, Nat.sub_sub]
  refine ⟨b + u.length, ⟨by omega, by omega, ?_⟩, ⟨by omega, he, ?_⟩⟩
  · rw [← hcut.1]
    exact hu
  · rw [← hcut.2]
    exact hv

/-- A star reaches every place behind. -/
theorem skip (hbe : b ≤ e) (he : e ≤ s.length) : GlobAt star [star] s b e := by
  refine ⟨hbe, he, ?_⟩
  have hskip : Glob star [star] (s.extract b e ++ []) := Glob.skip (s.extract b e) Glob.nil
  rw [List.append_nil] at hskip
  exact hskip

theorem star_cons : GlobAt star (star :: p) s b e ↔ ∃ m, b ≤ m ∧ GlobAt star p s m e := by
  constructor
  · intro h
    obtain ⟨m, hm, hp⟩ := of_append (p := [star]) h
    exact ⟨m, hm.1, hp⟩
  · rintro ⟨m, hbm, hp⟩
    exact (skip hbm (Nat.le_trans hp.1 hp.2.1)).append hp

theorem letters (h : star ∉ p) : GlobAt star p s b e ↔
    b + p.length = e ∧ e ≤ s.length ∧ p <+: s.drop b := by
  constructor
  · rintro ⟨hbe, he, hg⟩
    have heq := (Glob.letters h).mp hg
    simp only [List.extract] at heq
    have hlen := congrArg List.length heq
    rw [List.length_take, List.length_drop] at hlen
    refine ⟨by omega, he, ?_⟩
    rw [← heq]
    exact List.take_prefix _ _
  · rintro ⟨rfl, he, hp⟩
    refine ⟨Nat.le_add_right _ _, he, (Glob.letters h).mpr ?_⟩
    simp only [List.extract, Nat.add_sub_cancel_left]
    exact (List.prefix_iff_eq_take.mp hp).symm

theorem letters_append (h : star ∉ p) : GlobAt star (p ++ q) s b e ↔
    p <+: s.drop b ∧ GlobAt star q s (b + p.length) e := by
  constructor
  · intro hg
    obtain ⟨m, hm, hq⟩ := of_append hg
    obtain ⟨rfl, _, hp⟩ := (letters h).mp hm
    exact ⟨hp, hq⟩
  · rintro ⟨hp, hq⟩
    exact ((letters h).mpr ⟨rfl, Nat.le_trans hq.1 hq.2.1, hp⟩).append hq

/-- What a star can reach from a place it can reach from every place before. -/
theorem mono {b' : ℕ} (hb : b ≤ b') (h : GlobAt star (star :: p) s b' e) :
    GlobAt star (star :: p) s b e := by
  obtain ⟨m, hm, hp⟩ := star_cons.mp h
  exact star_cons.mpr ⟨m, Nat.le_trans hb hm, hp⟩

/-! ## Parts of a text, and the text backwards -/

theorem drop {k : ℕ} (hk : k ≤ s.length) :
    GlobAt star p (s.drop k) b e ↔ GlobAt star p s (k + b) (k + e) := by
  unfold GlobAt
  simp only [List.extract, List.drop_drop, List.length_drop, Nat.add_sub_add_left]
  constructor
  · rintro ⟨h1, h2, h3⟩
    exact ⟨by omega, by omega, h3⟩
  · rintro ⟨h1, h2, h3⟩
    exact ⟨by omega, by omega, h3⟩

theorem take {n : ℕ} (hn : n ≤ s.length) :
    GlobAt star p (s.take n) b e ↔ GlobAt star p s b e ∧ e ≤ n := by
  unfold GlobAt
  simp only [List.extract, List.drop_take, List.take_take, List.length_take]
  have hmin : e ≤ n → min (e - b) (n - b) = e - b := by omega
  constructor
  · rintro ⟨h1, h2, h3⟩
    rw [hmin (by omega)] at h3
    exact ⟨⟨h1, by omega, h3⟩, by omega⟩
  · rintro ⟨⟨h1, h2, h3⟩, h4⟩
    rw [hmin h4]
    exact ⟨h1, by omega, h3⟩

theorem reverse (h : GlobAt star p s b e) :
    GlobAt star p.reverse s.reverse (s.length - e) (s.length - b) := by
  obtain ⟨hbe, he, hg⟩ := h
  refine ⟨by omega, by rw [List.length_reverse]; omega, ?_⟩
  have hrev : s.reverse.extract (s.length - e) (s.length - b) = (s.extract b e).reverse := by
    simp only [List.extract]
    rw [List.drop_reverse, List.take_reverse, List.drop_take, List.length_take]
    congr 2
    · omega
    · congr 1
      omega
  rw [hrev]
  exact hg.reverse

theorem of_reverse (h : GlobAt star p.reverse s.reverse b e) :
    GlobAt star p s (s.length - e) (s.length - b) := by
  have h' := h.reverse
  rwa [List.reverse_reverse, List.reverse_reverse, List.length_reverse] at h'

end GlobAt

/-! ## The least end and the first match -/

/-- The least number with this property, if there is one. -/
def LeastSome (P : ℕ → Prop) : Option ℕ → Prop
  | some e => P e ∧ ∀ e', P e' → e ≤ e'
  | none => ∀ e', ¬P e'

theorem LeastSome.congr {P Q : ℕ → Prop} {o : Option ℕ} (h : LeastSome P o)
    (hpq : ∀ e, P e ↔ Q e) : LeastSome Q o := by
  have heq : P = Q := funext fun e => propext (hpq e)
  rw [← heq]
  exact h

/-- The first match: none begins and none ends before it. -/
def FirstMatch (star : α) (p s : List α) : Option (ℕ × ℕ) → Prop
  | some (b, e) => GlobAt star p s b e ∧ ∀ b' e', GlobAt star p s b' e' → b ≤ b' ∧ e ≤ e'
  | none => ∀ b e, ¬GlobAt star p s b e

/-- The first occurrence of a text from `b` on. -/
def FirstFrom (p s : List α) (b : ℕ) : Option ℕ → Prop :=
  LeastSome fun i => b ≤ i ∧ i + p.length ≤ s.length ∧ p <+: s.drop i

section Pieces

variable {p q s : List α} {b i : ℕ}

theorem leastEnd_nil (hb : b ≤ s.length) : LeastSome (GlobAt star [star] s b) (some b) :=
  ⟨GlobAt.skip (Nat.le_refl _) hb, fun _ h => h.1⟩

theorem leastEnd_star {o : Option ℕ} (h : LeastSome (GlobAt star (star :: p) s b) o) :
    LeastSome (GlobAt star (star :: star :: p) s b) o := by
  apply h.congr
  intro e
  constructor
  · intro hg
    have hle := hg.1
    exact GlobAt.star_cons.mpr ⟨b, Nat.le_refl _, hg⟩
  · intro hg
    obtain ⟨m, hm, hp⟩ := GlobAt.star_cons.mp hg
    exact hp.mono hm

theorem leastEnd_none (h : star ∉ p) (hi : FirstFrom p s b none) :
    LeastSome (GlobAt star (star :: (p ++ q)) s b) none := by
  intro e hg
  obtain ⟨m, hm, hp⟩ := GlobAt.star_cons.mp hg
  obtain ⟨hpre, hq⟩ := (GlobAt.letters_append h).mp hp
  exact hi m ⟨hm, Nat.le_trans hq.1 hq.2.1, hpre⟩

/-- The last piece ends where its first occurrence ends. -/
theorem leastEnd_last (h : star ∉ p) (hi : FirstFrom p s b (some i)) :
    LeastSome (GlobAt star (star :: p) s b) (some (i + p.length)) := by
  obtain ⟨⟨hbi, hlen, hpre⟩, hleast⟩ := hi
  constructor
  · exact GlobAt.star_cons.mpr ⟨i, hbi, (GlobAt.letters h).mpr ⟨rfl, hlen, hpre⟩⟩
  · intro e hg
    obtain ⟨m, hm, hp⟩ := GlobAt.star_cons.mp hg
    obtain ⟨rfl, he, hpre'⟩ := (GlobAt.letters h).mp hp
    have := hleast m ⟨hm, he, hpre'⟩
    omega

/-- A piece at its first occurrence leaves the most for what is behind the star. -/
theorem leastEnd_piece (h : star ∉ p) (hi : FirstFrom p s b (some i)) {o : Option ℕ}
    (ho : LeastSome (GlobAt star (star :: q) s (i + p.length)) o) :
    LeastSome (GlobAt star (star :: (p ++ star :: q)) s b) o := by
  obtain ⟨⟨hbi, hlen, hpre⟩, hleast⟩ := hi
  apply ho.congr
  intro e
  constructor
  · intro hg
    exact GlobAt.star_cons.mpr ⟨i, hbi, (GlobAt.letters_append h).mpr ⟨hpre, hg⟩⟩
  · intro hg
    obtain ⟨m, hm, hp⟩ := GlobAt.star_cons.mp hg
    obtain ⟨hpre', hq⟩ := (GlobAt.letters_append h).mp hp
    have := hleast m ⟨hm, Nat.le_trans hq.1 hq.2.1, hpre'⟩
    exact hq.mono (by omega)

/-- A match of a pattern that begins with a star begins with the text. -/
theorem firstMatch_star {o : Option ℕ} (ho : LeastSome (GlobAt star (star :: p) s 0) o) :
    FirstMatch star (star :: p) s (o.map fun e => (0, e)) := by
  cases o with
  | none =>
    intro b e hg
    exact ho e (hg.mono (Nat.zero_le _))
  | some e =>
    exact ⟨ho.1, fun b' e' hg => ⟨Nat.zero_le _, ho.2 e' (hg.mono (Nat.zero_le _))⟩⟩

theorem firstMatch_none (h : star ∉ p) (hi : FirstFrom p s 0 none) :
    FirstMatch star (p ++ q) s none := by
  intro b e hg
  obtain ⟨hpre, hq⟩ := (GlobAt.letters_append h).mp hg
  exact hi b ⟨Nat.zero_le _, Nat.le_trans hq.1 hq.2.1, hpre⟩

theorem firstMatch_letters (h : star ∉ p) (hi : FirstFrom p s 0 (some i)) :
    FirstMatch star p s (some (i, i + p.length)) := by
  obtain ⟨⟨_, hlen, hpre⟩, hleast⟩ := hi
  refine ⟨(GlobAt.letters h).mpr ⟨rfl, hlen, hpre⟩, fun b' e' hg => ?_⟩
  obtain ⟨rfl, he, hpre'⟩ := (GlobAt.letters h).mp hg
  have := hleast b' ⟨Nat.zero_le _, he, hpre'⟩
  omega

theorem firstMatch_piece (h : star ∉ p) (hi : FirstFrom p s 0 (some i)) {o : Option ℕ}
    (ho : LeastSome (GlobAt star (star :: q) s (i + p.length)) o) :
    FirstMatch star (p ++ star :: q) s (o.map fun e => (i, e)) := by
  obtain ⟨⟨_, hlen, hpre⟩, hleast⟩ := hi
  have hsplit : ∀ b e, GlobAt star (p ++ star :: q) s b e →
      i ≤ b ∧ GlobAt star (star :: q) s (i + p.length) e := by
    intro b e hg
    obtain ⟨hpre', hq⟩ := (GlobAt.letters_append h).mp hg
    have := hleast b ⟨Nat.zero_le _, Nat.le_trans hq.1 hq.2.1, hpre'⟩
    exact ⟨this, hq.mono (by omega)⟩
  cases o with
  | none =>
    intro b e hg
    exact ho e (hsplit b e hg).2
  | some e =>
    refine ⟨(GlobAt.letters_append h).mpr ⟨hpre, ho.1⟩, fun b' e' hg => ?_⟩
    exact ⟨(hsplit b' e' hg).1, ho.2 e' (hsplit b' e' hg).2⟩

end Pieces

end CppSnippets.Lib
