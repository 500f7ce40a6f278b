import Mathlib.Logic.Function.Iterate
import CppSnippets.Tetris.Board

/-!
# The turn of a square

`rotate90_right` turns the outer ring of the square, four cells at a time, and calls
itself on the view inside, whatever the cells are. In the coordinates of the whole square
every ring and every group of four cells moves by the same map, so what one turn of four
cells does says what the ring does, and the ring says what the square does.
-/
namespace CppSnippets.Tetris.Array2d

variable {h w n : Nat} {α : Type} [Inhabited α] {m : Array2d h w α}

/-- The square turned to the right by a quarter. -/
def quarter (m : Array2d n n α) : Array2d n n α := fun i j => m j.rev i

theorem cell_of_lt {y x : Nat} (hy : y < h) (hx : x < w) : m.cell y x = m ⟨y, hy⟩ ⟨x, hx⟩ :=
  dif_pos ⟨hy, hx⟩

theorem cell_val (i : Fin h) (j : Fin w) : m.cell i.val j.val = m i j := cell_of_lt i.isLt j.isLt

theorem cell_setCell {y x : Nat} (hy : y < h) (hx : x < w) (v : α) (i j : Nat) :
    (m.setCell y x v).cell i j = if i = y ∧ j = x then v else m.cell i j := by
  by_cases hij : i < h ∧ j < w
  · rw [cell_of_lt hij.1 hij.2, cell_of_lt hij.1 hij.2]
    rfl
  · have hne : ¬(i = y ∧ j = x) := by
      intro heq
      exact hij ⟨heq.1 ▸ hy, heq.2 ▸ hx⟩
    rw [if_neg hne, cell, cell, dif_neg hij, dif_neg hij]

/-- The cell at a pair. -/
def at2 (m : Array2d h w α) (a : Nat × Nat) : α := m.cell a.1 a.2

theorem at2_swap {a b : Nat × Nat} (ha : a.1 < h ∧ a.2 < w) (hb : b.1 < h ∧ b.2 < w) (q : Nat × Nat) :
    (m.swap a b).at2 q = if q = b then m.at2 a else if q = a then m.at2 b else m.at2 q := by
  rw [at2, swap, cell_setCell hb.1 hb.2, cell_setCell ha.1 ha.2]
  simp only [at2, Prod.ext_iff]

/-- What three exchanges with the first of four cells leave. -/
theorem at2_swaps {a b c d : Nat × Nat} (ha : a.1 < h ∧ a.2 < w) (hb : b.1 < h ∧ b.2 < w)
    (hc : c.1 < h ∧ c.2 < w) (hd : d.1 < h ∧ d.2 < w) (hdistinct : [a, b, c, d].Nodup) (q : Nat × Nat) :
    (((m.swap a b).swap a c).swap a d).at2 q =
      if q = a then m.at2 d else if q = b then m.at2 a else if q = c then m.at2 b
      else if q = d then m.at2 c else m.at2 q := by
  simp only [List.nodup_cons, List.mem_cons, List.not_mem_nil, or_false, not_or, not_false_eq_true,
    List.nodup_nil, and_true] at hdistinct
  obtain ⟨⟨hab, hac, had⟩, ⟨hbc, hbd⟩, hcd⟩ := hdistinct
  have hfirst : ((m.swap a b).swap a c).at2 a = m.at2 c := by
    rw [at2_swap ha hc, if_neg hac, if_pos rfl, at2_swap ha hb, if_neg (Ne.symm hbc), if_neg (Ne.symm hac)]
  have hlast : ((m.swap a b).swap a c).at2 d = m.at2 d := by
    rw [at2_swap ha hc, if_neg (Ne.symm hcd), if_neg (Ne.symm had), at2_swap ha hb, if_neg (Ne.symm hbd),
      if_neg (Ne.symm had)]
  have hmiddle : (m.swap a b).at2 a = m.at2 b := by rw [at2_swap ha hb, if_neg hab, if_pos rfl]
  rw [at2_swap ha hd, hfirst, hlast]
  by_cases hqd : q = d
  · rw [if_pos hqd, if_neg (hqd ▸ Ne.symm had), if_neg (hqd ▸ Ne.symm hbd), if_neg (hqd ▸ Ne.symm hcd),
      if_pos hqd]
  rw [if_neg hqd]
  by_cases hqa : q = a
  · rw [if_pos hqa, if_pos hqa]
  rw [if_neg hqa, if_neg hqa, at2_swap ha hc, hmiddle]
  by_cases hqc : q = c
  · rw [if_pos hqc, if_neg (hqc ▸ Ne.symm hbc), if_pos hqc]
  rw [if_neg hqc, if_neg hqa, at2_swap ha hb]
  by_cases hqb : q = b
  · rw [if_pos hqb, if_pos hqb]
  · rw [if_neg hqb, if_neg hqa, if_neg hqb, if_neg hqc, if_neg hqd]

/-! ## One ring -/

/-- The cell whose value comes to `q` by a quarter turn of `n` rows and columns. -/
def before (n : Nat) (q : Nat × Nat) : Nat × Nat := (n - 1 - q.2, q.1)

/-- On the ring that begins at `k` and has sides of `s`, at most `i` cells from the
corner where the turn of its side begins. -/
structure Passed (k s i : Nat) (q : Nat × Nat) : Prop where
  side : q.1 = k ∧ k ≤ q.2 ∧ q.2 < k + i ∨ q.2 = k + (s - 1) ∧ k ≤ q.1 ∧ q.1 < k + i ∨
    q.1 = k + (s - 1) ∧ k + (s - 1) < q.2 + i ∧ q.2 ≤ k + (s - 1) ∨
    q.2 = k ∧ k + (s - 1) < q.1 + i ∧ q.1 ≤ k + (s - 1)

/-- The cells of the view of `s` rows and columns that begins at `k`. -/
def InView (k s : Nat) (q : Nat × Nat) : Prop := k ≤ q.1 ∧ q.1 < k + s ∧ k ≤ q.2 ∧ q.2 < k + s

/-- Exactly the cells in `P` have been turned. -/
def Turned (P : Nat × Nat → Prop) (m r : Array2d n n α) : Prop :=
  ∀ q, (P q → r.at2 q = m.at2 (before n q)) ∧ (¬P q → r.at2 q = m.at2 q)

theorem at2_turn4 {m : Array2d n n α} {k s i : Nat} (hn : n = 2 * k + s) (hi : i + 1 < s) (q : Nat × Nat) :
    (m.turn4 k s i).at2 q =
      if q = (k, k + i) ∨ q = (k + i, k + (s - 1)) ∨ q = (k + (s - 1), k + (s - 1 - i)) ∨
          q = (k + (s - 1 - i), k) then m.at2 (before n q)
      else m.at2 q := by
  have hswaps := at2_swaps (m := m) (a := (k, k + i)) (b := (k + i, k + (s - 1)))
    (c := (k + (s - 1), k + (s - 1 - i))) (d := (k + (s - 1 - i), k))
    (by dsimp only; omega) (by dsimp only; omega) (by dsimp only; omega) (by dsimp only; omega)
    (by simp only [List.nodup_cons, List.mem_cons, List.not_mem_nil, Prod.mk.injEq, or_false,
          List.nodup_nil, not_false_eq_true, and_true]
        omega) q
  rw [turn4, hswaps]
  by_cases ha : q = (k, k + i)
  · rw [if_pos ha, if_pos (.inl ha), ha, before]
    congr 2
    omega
  rw [if_neg ha]
  by_cases hb : q = (k + i, k + (s - 1))
  · rw [if_pos hb, if_pos (.inr (.inl hb)), hb, before]
    congr 2
    dsimp only
    omega
  rw [if_neg hb]
  by_cases hc : q = (k + (s - 1), k + (s - 1 - i))
  · rw [if_pos hc, if_pos (.inr (.inr (.inl hc))), hc, before]
    congr 2
    dsimp only
    omega
  rw [if_neg hc]
  by_cases hd : q = (k + (s - 1 - i), k)
  · rw [if_pos hd, if_pos (.inr (.inr (.inr hd))), hd, before]
    congr 2
    dsimp only
    omega
  · rw [if_neg hd, if_neg fun h => h.elim ha fun h => h.elim hb fun h => h.elim hc hd]

/-- One more turn of four cells, one for each side. -/
theorem passed_succ {k s i : Nat} (hi : i + 1 < s) {q : Nat × Nat} : Passed k s (i + 1) q ↔
    Passed k s i q ∨ q = (k, k + i) ∨ q = (k + i, k + (s - 1)) ∨
      q = (k + (s - 1), k + (s - 1 - i)) ∨ q = (k + (s - 1 - i), k) := by
  obtain ⟨y, x⟩ := q
  simp only [Prod.mk.injEq]
  constructor
  · intro h
    rcases h.side with hside | hside | hside | hside
    · by_cases hx : x = k + i
      · exact .inr (.inl ⟨hside.1, hx⟩)
      · exact .inl ⟨.inl ⟨hside.1, hside.2.1, by dsimp only at hside ⊢; omega⟩⟩
    · by_cases hy : y = k + i
      · exact .inr (.inr (.inl ⟨hy, hside.1⟩))
      · exact .inl ⟨.inr (.inl ⟨hside.1, hside.2.1, by dsimp only at hside ⊢; omega⟩)⟩
    · by_cases hx : x = k + (s - 1 - i)
      · exact .inr (.inr (.inr (.inl ⟨hside.1, hx⟩)))
      · exact .inl ⟨.inr (.inr (.inl ⟨hside.1, by dsimp only at hside ⊢; omega, hside.2.2⟩))⟩
    · by_cases hy : y = k + (s - 1 - i)
      · exact .inr (.inr (.inr (.inr ⟨hy, hside.1⟩)))
      · exact .inl ⟨.inr (.inr (.inr ⟨hside.1, by dsimp only at hside ⊢; omega, hside.2.2⟩))⟩
  · intro h
    rcases h with h | ⟨hy, hx⟩ | ⟨hy, hx⟩ | ⟨hy, hx⟩ | ⟨hy, hx⟩
    · rcases h.side with hside | hside | hside | hside
      · exact ⟨.inl ⟨hside.1, hside.2.1, Nat.lt_succ_of_lt hside.2.2⟩⟩
      · exact ⟨.inr (.inl ⟨hside.1, hside.2.1, Nat.lt_succ_of_lt hside.2.2⟩)⟩
      · exact ⟨.inr (.inr (.inl ⟨hside.1, Nat.lt_succ_of_lt hside.2.1, hside.2.2⟩))⟩
      · exact ⟨.inr (.inr (.inr ⟨hside.1, Nat.lt_succ_of_lt hside.2.1, hside.2.2⟩))⟩
    · exact ⟨.inl ⟨hy, by dsimp only; omega, by dsimp only; omega⟩⟩
    · exact ⟨.inr (.inl ⟨hx, by dsimp only; omega, by dsimp only; omega⟩)⟩
    · exact ⟨.inr (.inr (.inl ⟨hy, by dsimp only; omega, by dsimp only; omega⟩))⟩
    · exact ⟨.inr (.inr (.inr ⟨hx, by dsimp only; omega, by dsimp only; omega⟩))⟩

/-- What comes to the next four cells has not been turned. -/
theorem not_passed_source {k s i : Nat} (hn : n = 2 * k + s) (hi : i + 1 < s) {q : Nat × Nat}
    (hfour : q = (k, k + i) ∨ q = (k + i, k + (s - 1)) ∨ q = (k + (s - 1), k + (s - 1 - i)) ∨
      q = (k + (s - 1 - i), k)) : ¬Passed k s i (before n q) := by
  intro h
  have hside := h.side
  rcases hfour with rfl | rfl | rfl | rfl
  · dsimp only [before] at hside
    omega
  · dsimp only [before] at hside
    omega
  · dsimp only [before] at hside
    omega
  · dsimp only [before] at hside
    omega

theorem turned_turn4 {m r : Array2d n n α} {k s i : Nat} (hn : n = 2 * k + s) (hi : i + 1 < s)
    (hturned : Turned (Passed k s i) m r) : Turned (Passed k s (i + 1)) m (r.turn4 k s i) := by
  intro q
  rw [at2_turn4 hn hi, passed_succ hi]
  split
  · rename_i hfour
    exact ⟨fun _ => (hturned _).2 (not_passed_source hn hi hfour), fun h => absurd (.inr hfour) h⟩
  · rename_i hother
    rw [or_iff_left hother]
    exact hturned _

theorem turned_ring {m : Array2d n n α} {k s : Nat} (hn : n = 2 * k + s) (i : Nat) (hi : i < s) :
    Turned (Passed k s i) m ((List.range i).foldl (fun m i => m.turn4 k s i) m) := by
  induction i with
  | zero =>
    intro q
    refine ⟨fun h => ?_, fun _ => rfl⟩
    have hside := h.side
    omega
  | succ i ih =>
    rw [List.range_succ, List.foldl_append, List.foldl_cons, List.foldl_nil]
    exact turned_turn4 hn hi (ih (by omega))

/-! ## The square -/

/-- The view is its outer ring and the view inside. -/
theorem inView_ring {k s : Nat} {q : Nat × Nat} :
    InView k (s + 2) q ↔ Passed k (s + 2) (s + 1) q ∨ InView (k + 1) s q := by
  constructor
  · intro h
    by_cases hin : InView (k + 1) s q
    · exact .inr hin
    · rw [InView] at h hin
      exact .inl ⟨by omega⟩
  · intro h
    rw [InView]
    cases h with
    | inl hring =>
      have hside := hring.side
      omega
    | inr hin =>
      rw [InView] at hin
      omega

/-- Cells inside a ring come from cells inside it. -/
theorem not_passed_before {k s : Nat} {q : Nat × Nat} (hn : n = 2 * k + (s + 2)) (hin : InView (k + 1) s q) :
    ¬Passed k (s + 2) (s + 1) (before n q) ∧ ¬Passed k (s + 2) (s + 1) q := by
  rw [InView] at hin
  constructor
  · intro h
    have hside := h.side
    dsimp only [before] at hside
    omega
  · intro h
    have hside := h.side
    omega

theorem turned_rotate90RightFrom {m : Array2d n n α} {k s : Nat} (hn : n = 2 * k + s) :
    Turned (InView k s) m (m.rotate90RightFrom k s) := by
  induction s using Nat.twoStepInduction generalizing m k with
  | zero =>
    intro q
    refine ⟨fun h => ?_, fun _ => rfl⟩
    rw [InView] at h
    omega
  | one =>
    -- the cell in the middle stays
    intro q
    refine ⟨fun h => ?_, fun _ => rfl⟩
    rw [InView] at h
    have hmiddle : before n q = q := Prod.ext (by dsimp only [before]; omega) (by dsimp only [before]; omega)
    rw [hmiddle]
    rfl
  | more s ih _ =>
    have hring := turned_ring (m := m) hn (s + 1) (by omega)
    have hinside := ih (m := (List.range (s + 1)).foldl (fun m i => m.turn4 k (s + 2) i) m) (k := k + 1)
      (by omega)
    have hrec : m.rotate90RightFrom k (s + 2) = Array2d.rotate90RightFrom
        ((List.range (s + 1)).foldl (fun m i => m.turn4 k (s + 2) i) m) (k + 1) s := by
      cases s with
      | zero => rfl
      | succ s => rfl
    intro q
    rw [hrec, inView_ring]
    by_cases hin : InView (k + 1) s q
    · obtain ⟨hbefore, _⟩ := not_passed_before hn hin
      refine ⟨fun _ => ?_, fun h => absurd (.inr hin) h⟩
      rw [(hinside q).1 hin, (hring _).2 hbefore]
    · rw [or_iff_left hin, (hinside q).2 hin]
      exact hring q

theorem rotate90Right_eq_quarter (m : Array2d n n α) : m.rotate90Right = m.quarter := by
  funext i j
  have hturned := (turned_rotate90RightFrom (m := m) (k := 0) (s := n) (by omega) (i.val, j.val)).1
    ⟨Nat.zero_le _, by have := i.isLt; dsimp only; omega, Nat.zero_le _, by have := j.isLt; dsimp only; omega⟩
  have hsource : before n (i.val, j.val) = (j.rev.val, i.val) := by
    rw [before, Fin.val_rev]
    congr 1
    dsimp only
    omega
  rw [hsource] at hturned
  rw [rotate90Right, quarter, ← cell_val (m := m) j.rev i,
    ← cell_val (m := m.rotate90RightFrom 0 n) i j]
  exact hturned

omit [Inhabited α] in
theorem quarter_quarter (m : Array2d n n α) : m.quarter.quarter = fun i j => m i.rev j.rev := rfl

/-- Every cell comes from the row that counts its column from the bottom, and four turns
lead back. -/
theorem rotate90Right_spec (m : Array2d n n α) :
    (∀ i j, m.rotate90Right i j = m j.rev i) ∧ rotate90Right^[4] m = m := by
  refine ⟨fun i j => by rw [rotate90Right_eq_quarter]; rfl, ?_⟩
  have hfun : (rotate90Right : Array2d n n α → Array2d n n α) = quarter := funext rotate90Right_eq_quarter
  rw [hfun, show (4 : Nat) = 2 + 2 from rfl, Function.iterate_add_apply]
  show (quarter (quarter (quarter (quarter m)))) = m
  rw [quarter_quarter, quarter_quarter]
  funext i j
  dsimp only
  rw [Fin.rev_rev, Fin.rev_rev]

end CppSnippets.Tetris.Array2d
