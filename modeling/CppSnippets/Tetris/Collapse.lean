import Mathlib.Algebra.GroupWithZero.Nat
import CppSnippets.Tetris.Falling
import CppSnippets.Tetris.Rotate

/-!
# The rows that go

`collapse` walks up from the piece's last row. The rows it has left behind are the
ones that stay, below as many empty rows as it has cleared; the rows above it are as
they were. What the walk has done is therefore said by the list of the rows, and a
landing by one equation between lists.
-/
namespace CppSnippets.Tetris

open CppSnippets.Lib

namespace Array2d

variable {h w : Nat} {m : Array2d h w}

/-- From the top. -/
def rows (m : Array2d h w) : List (Fin w → Bool) := List.ofFn m

def emptyRow : Fin w → Bool := fun _ => false

/-- The number of filled cells. -/
def filled (m : Array2d h w) : Nat := (m.rows.map fun r => (List.finRange w).countP r).sum

theorem length_rows : m.rows.length = h := List.length_ofFn

theorem mem_rows {r : Fin w → Bool} : r ∈ m.rows ↔ ∃ y, m y = r := List.mem_ofFn

theorem rows_setRow (y : Nat) (r : Fin w → Bool) : (m.setRow y r).rows = m.rows.set y r := by
  refine List.ext_getElem (by rw [List.length_set, length_rows, length_rows]) fun i hi _ => ?_
  rw [List.getElem_set]
  simp only [rows, List.getElem_ofFn, setRow, eq_comm]

theorem set_middle {α : Type*} (above below : List α) (a b : α) :
    (above ++ a :: below).set above.length b = above ++ b :: below := by
  rw [List.set_append_right _ _ le_rfl, Nat.sub_self, List.set_cons_zero]

theorem row_of_rows {above below : List (Fin w → Bool)} {r : Fin w → Bool}
    (hrows : m.rows = above ++ r :: below) : m.row above.length = r := by
  have hlt : above.length < h := by
    rw [← length_rows (m := m), hrows, List.length_append, List.length_cons]
    omega
  have hat : m.rows[above.length]? = some (m ⟨above.length, hlt⟩) := by
    rw [rows, List.getElem?_ofFn, dif_pos hlt]
  rw [hrows, List.getElem?_append_right le_rfl, Nat.sub_self, List.getElem?_cons_zero] at hat
  rw [row, dif_pos hlt, Option.some.inj hat]

/-! ## One row of the walk -/

/-- The rows above `rb`. -/
def above (m : Array2d h w) (r0 rb nc : Nat) : Array2d h w :=
  match rb with
  | 0 => m
  | rb + 1 => m.collapse r0 rb nc

variable {r0 rb nc : Nat}

/-- Row `rb` goes down by the rows that have been cleared. -/
def shift (m : Array2d h w) (rb nc : Nat) : Array2d h w := (m.setRow (rb + nc) (m.row rb)).clear rb

theorem collapse_eq : m.collapse r0 rb nc =
    if full (m.row rb) ∧ r0 ≤ rb then (m.clear rb).above r0 rb (nc + 1)
    else if 0 < nc then (m.shift rb nc).above r0 rb nc
    else if rb = r0 then m else m.above r0 rb nc := by
  rw [collapse.eq_def]
  simp only [gt_iff_lt, ge_iff_le]
  by_cases hgo : full (m.row rb) = true ∧ r0 ≤ rb
  · rw [if_pos hgo, if_pos hgo.2, if_pos hgo.1]
    rfl
  rw [if_neg hgo]
  by_cases hnc : 0 < nc
  · rw [if_pos hnc, if_pos hnc, if_pos hnc]
    by_cases hrb : r0 ≤ rb
    · rw [if_pos hrb, if_neg fun h => hgo ⟨h, hrb⟩]
      rfl
    · rw [if_neg hrb]
      rfl
  · rw [if_neg hnc, if_neg hnc, if_neg hnc]
    by_cases hrb : r0 ≤ rb
    · rw [if_pos hrb, if_neg fun h => hgo ⟨h, hrb⟩]
      simp only [beq_iff_eq]
      rfl
    · rw [if_neg hrb, if_neg (by omega : ¬rb = r0)]
      rfl

/-! ## The walk -/

theorem rows_clear_last {above below : List (Fin w → Bool)} {nc : Nat} {r : Fin w → Bool}
    (hrows : m.rows = above ++ r :: (List.replicate nc emptyRow ++ below)) :
    (m.clear above.length).rows = above ++ (List.replicate (nc + 1) emptyRow ++ below) := by
  rw [clear, rows_setRow, hrows, set_middle, List.replicate_succ, List.cons_append]
  rfl

theorem rows_shift {above below : List (Fin w → Bool)} {nc : Nat} {r : Fin w → Bool} (hnc : 0 < nc)
    (hrows : m.rows = above ++ r :: (List.replicate nc emptyRow ++ below)) :
    (m.shift above.length nc).rows = above ++ (List.replicate nc emptyRow ++ r :: below) := by
  obtain ⟨k, rfl⟩ : ∃ k, nc = k + 1 := ⟨nc - 1, by omega⟩
  have hlast : (above ++ r :: List.replicate k emptyRow).length = above.length + (k + 1) := by
    rw [List.length_append, List.length_cons, List.length_replicate]
  have hset : (m.setRow (above.length + (k + 1)) r).rows =
      above ++ r :: (List.replicate k emptyRow ++ r :: below) := by
    rw [rows_setRow, hrows, ← hlast, List.replicate_succ', List.append_assoc, ← List.cons_append,
      ← List.append_assoc, List.singleton_append, set_middle]
    simp only [List.append_assoc, List.cons_append]
  rw [shift, row_of_rows hrows, clear, rows_setRow, hset, set_middle, List.replicate_succ, List.cons_append]
  rfl

/-- One row more, from what the rest of the walk does. -/
theorem rows_collapse_step (above : List (Fin w → Bool)) {below : List (Fin w → Bool)} {r : Fin w → Bool}
    (hlen : above.length = rb) (hrows : m.rows = above ++ [r] ++ (List.replicate nc emptyRow ++ below))
    (hfull : ∀ r' ∈ (above ++ [r]).take r0, full r' = false)
    (hrest : ∀ (m' : Array2d h w) nc' below',
      m'.rows = above ++ (List.replicate nc' emptyRow ++ below') →
      (m'.above r0 rb nc').rows = List.replicate (above.countP full + nc') emptyRow ++
        (above.filter (fun r => !full r) ++ below')) :
    (m.collapse r0 rb nc).rows = List.replicate ((above ++ [r]).countP full + nc) emptyRow ++
      ((above ++ [r]).filter (fun r => !full r) ++ below) := by
  subst hlen
  rw [List.append_assoc, List.singleton_append] at hrows
  rw [collapse_eq, row_of_rows hrows, List.countP_append, List.countP_singleton, List.filter_append]
  cases hr : full r with
  | true =>
    -- a row above `r0` is never full
    have hrb : r0 ≤ above.length := by
      by_contra hlt
      have hmem : r ∈ (above ++ [r]).take r0 := by
        rw [List.take_of_length_le (by rw [List.length_append, List.length_singleton]; omega)]
        exact List.mem_append_right _ (List.mem_singleton_self r)
      rw [hfull r hmem] at hr
      cases hr
    rw [if_pos ⟨rfl, hrb⟩, hrest _ _ _ (rows_clear_last hrows), if_pos rfl,
      List.filter_singleton, hr, Bool.not_true, cond_false, List.append_nil, Nat.add_assoc, Nat.add_comm nc 1]
  | false =>
    rw [if_neg fun h => Bool.false_ne_true h.1, if_neg Bool.false_ne_true, Nat.add_zero,
      List.filter_singleton, hr, Bool.not_false, cond_true, List.append_assoc, List.singleton_append]
    by_cases hnc : 0 < nc
    · rw [if_pos hnc, hrest _ _ _ (rows_shift hnc hrows)]
    · obtain rfl : nc = 0 := by omega
      rw [if_neg hnc]
      split
      · -- no row is left that may be full
        rename_i hstop
        have habove : ∀ r' ∈ above, full r' = false := by
          intro r' hr'
          refine hfull r' ?_
          rw [← hstop, List.take_append_of_le_length le_rfl, List.take_length]
          exact hr'
        have hcount : above.countP full = 0 := by
          rw [List.countP_eq_zero]
          intro r' hr'
          rw [habove r' hr']
          exact Bool.false_ne_true
        have hfilter : above.filter (fun r => !full r) = above := by
          rw [List.filter_eq_self]
          intro r' hr'
          rw [habove r' hr', Bool.not_false]
        rw [hrows, hcount, hfilter]
        rfl
      · exact hrest _ _ _ hrows

/-- The rows above come down over the empty ones as far as they are not full. -/
theorem rows_collapse (upper below : List (Fin w → Bool)) (hlen : upper.length = rb + 1)
    (hrows : m.rows = upper ++ (List.replicate nc emptyRow ++ below))
    (hfull : ∀ r ∈ upper.take r0, full r = false) :
    (m.collapse r0 rb nc).rows = List.replicate (upper.countP full + nc) emptyRow ++
      (upper.filter (fun r => !full r) ++ below) := by
  induction rb generalizing m upper nc below with
  | zero =>
    obtain ⟨r, rfl⟩ := List.length_eq_one_iff.mp hlen
    refine rows_collapse_step [] rfl hrows hfull fun m nc below hrows => ?_
    rw [List.countP_nil, Nat.zero_add]
    exact hrows
  | succ rb ih =>
    obtain rfl | ⟨above, r, rfl⟩ := List.eq_nil_or_concat' upper
    · cases hlen
    have habove : above.length = rb + 1 := by
      rw [List.length_append, List.length_singleton] at hlen
      omega
    refine rows_collapse_step above habove hrows hfull fun m nc below hrows => ?_
    refine ih above below habove hrows fun r hr => hfull r ?_
    rw [List.take_append]
    exact List.mem_append_left _ hr

/-- Where full rows lie between `r0` and `rb` only, all of them go and no other row does. -/
theorem rows_collapse_zero (hrb : rb < h) (hup : ∀ y : Fin h, y.val < r0 → full (m y) = false)
    (hdown : ∀ y : Fin h, rb < y.val → full (m y) = false) :
    (m.collapse r0 rb 0).rows =
      List.replicate (m.rows.countP full) emptyRow ++ m.rows.filter (fun r => !full r) := by
  have hupper : ∀ r ∈ (m.rows.take (rb + 1)).take r0, full r = false := by
    intro r hr
    rw [List.take_take, List.mem_take_iff_getElem] at hr
    obtain ⟨y, hy, rfl⟩ := hr
    simp only [rows, List.getElem_ofFn]
    exact hup _ (by dsimp only; omega)
  have hlower : ∀ r ∈ m.rows.drop (rb + 1), full r = false := by
    intro r hr
    rw [List.mem_drop_iff_getElem] at hr
    obtain ⟨y, hy, rfl⟩ := hr
    simp only [rows, List.getElem_ofFn]
    exact hdown _ (by dsimp only; omega)
  have hcount : (m.rows.drop (rb + 1)).countP full = 0 := by
    rw [List.countP_eq_zero]
    intro r hr
    rw [hlower r hr]
    exact Bool.false_ne_true
  have hfilter : (m.rows.drop (rb + 1)).filter (fun r => !full r) = m.rows.drop (rb + 1) := by
    rw [List.filter_eq_self]
    intro r hr
    rw [hlower r hr, Bool.not_false]
  have hrows : (m.collapse r0 rb 0).rows = _ := rows_collapse (m.rows.take (rb + 1)) (m.rows.drop (rb + 1))
    (by rw [List.length_take, length_rows, Nat.min_eq_left hrb])
    (by rw [List.replicate_zero, List.nil_append, List.take_append_drop]) hupper
  have hsplit : m.rows.take (rb + 1) ++ m.rows.drop (rb + 1) = m.rows := List.take_append_drop _ _
  have hcountAll : (m.rows.take (rb + 1)).countP full = m.rows.countP full := by
    conv_rhs => rw [← hsplit, List.countP_append, hcount, Nat.add_zero]
  have hfilterAll : (m.rows.take (rb + 1)).filter (fun r => !full r) ++ m.rows.drop (rb + 1) =
      m.rows.filter fun r => !full r := by
    conv_rhs => rw [← hsplit, List.filter_append, hfilter]
  rw [hrows, hcountAll, hfilterAll, Nat.add_zero]

/-! ## Cells -/

theorem countP_full {r : Fin w → Bool} (hr : full r = true) : (List.finRange w).countP r = w := by
  have hall : ∀ x ∈ List.finRange w, r x = true := List.all_eq_true.mp hr
  rw [List.countP_eq_length.mpr hall, List.length_finRange]

theorem countP_emptyRow : (List.finRange w).countP emptyRow = 0 := by
  rw [List.countP_eq_zero]
  intro x _
  exact Bool.false_ne_true

/-- What is lost where full rows go is their cells. -/
theorem sum_full_rows (rows : List (Fin w → Bool)) :
    (rows.map fun r => (List.finRange w).countP r).sum =
      ((rows.filter fun r => !full r).map fun r => (List.finRange w).countP r).sum +
        w * rows.countP full := by
  induction rows with
  | nil => rfl
  | cons r rows ih =>
    rw [List.map_cons, List.sum_cons, ih, List.countP_cons, List.filter_cons]
    cases hr : full r with
    | true =>
      rw [countP_full hr, if_neg (by decide), if_pos rfl, Nat.mul_add, Nat.mul_one]
      omega
    | false =>
      rw [if_pos (by decide), if_neg (by decide), List.map_cons, List.sum_cons, Nat.add_zero]
      omega

theorem filled_of_rows {r : Array2d h w}
    (hrows : r.rows = List.replicate (m.rows.countP full) emptyRow ++ m.rows.filter (fun r => !full r)) :
    m.filled = r.filled + w * m.rows.countP full := by
  have hempty : ((List.replicate (m.rows.countP full) (emptyRow (w := w))).map
      fun r => (List.finRange w).countP r).sum = 0 := by
    rw [List.map_replicate, countP_emptyRow, List.sum_replicate_nat, Nat.mul_zero]
  rw [filled, filled, hrows, List.map_append, List.sum_append, hempty, Nat.zero_add]
  exact sum_full_rows m.rows

theorem not_full_of_rows {r : Array2d h w} (hw : 0 < w)
    (hrows : r.rows = List.replicate (m.rows.countP full) emptyRow ++ m.rows.filter (fun r => !full r))
    (y : Fin h) : full (r y) = false := by
  have hmem : r y ∈ r.rows := mem_rows.mpr ⟨y, rfl⟩
  rw [hrows, List.mem_append] at hmem
  cases hmem with
  | inl hempty =>
    rw [(List.mem_replicate.mp hempty).2, full, List.all_eq_false]
    exact ⟨⟨0, hw⟩, List.mem_finRange _, Bool.false_ne_true⟩
  | inr hkept =>
    have hnot := (List.mem_filter.mp hkept).2
    rw [Bool.not_eq_true'] at hnot
    exact hnot

end Array2d

/-! ## A landing -/

namespace Collapse

open Array2d Falling

variable {h w : Nat} {s t : Game h w}

def HasCell (a : Mat) : Prop := ∃ i j, a.cells i j = true

/-- A falling piece has a cell and has left the space above the board, and no row is
full between two landings. -/
structure Clear (s : Game h w) : Prop where
  free : Inv s
  piece : s.phase = .falling → 0 ≤ s.p.1 ∧ HasCell s.smat
  next : HasCell s.pv
  rows : 0 < w → s.phase ≠ .over → ∀ y, full (s.vmat y) = false

/-- A board with a falling piece has rows and columns. -/
theorem board_pos (hfits : Fits s) (hlow : 0 ≤ s.p.1) (hpiece : HasCell s.smat) : 0 < h ∧ 0 < w := by
  obtain ⟨i, j, hcell⟩ := hpiece
  have hwalls := hfits.walls i j hcell
  have hbottom := hfits.bottom i j hcell
  omega

/-- Rows beside the piece stay as they are. -/
theorem full_merged_of_not_covers {y : Fin h} (hrow : full (s.vmat y) = false)
    (hnot : ∀ x, ¬Covers s y x) : full (orAssign s.vmat s.p s.smat.cells y) = false := by
  have hsame : orAssign s.vmat s.p s.smat.cells y = s.vmat y := by
    funext x
    rw [Bool.eq_iff_iff, orAssign_eq_true]
    exact ⟨fun h => h.resolve_right (hnot x), .inl⟩
  rw [hsame]
  exact hrow

theorem rows_land (hfits : Fits s) (hlow : 0 ≤ s.p.1) (hpiece : HasCell s.smat)
    (hrows : ∀ y, full (s.vmat y) = false) :
    s.land.rows =
      List.replicate ((orAssign s.vmat s.p s.smat.cells).rows.countP full) emptyRow ++
        (orAssign s.vmat s.p s.smat.cells).rows.filter (fun r => !full r) := by
  have hpos := board_pos hfits hlow hpiece
  refine rows_collapse_zero (by omega) (fun y hy => ?_) fun y hy => ?_
  · refine full_merged_of_not_covers (hrows y) fun x hcovers => ?_
    obtain ⟨i, j, _, hp⟩ := hcovers
    rw [hp] at hy
    dsimp only at hy
    omega
  · refine full_merged_of_not_covers (hrows y) fun x hcovers => ?_
    obtain ⟨i, j, _, hp⟩ := hcovers
    have hi := i.isLt
    have hy' := y.isLt
    rw [hp] at hy
    dsimp only at hy
    omega

/-! ## The run -/

theorem hasCell_preview (rand : Nat) : HasCell (preview rand) := by
  have hall : ∀ k, k < 7 → ∃ i j, (preview k).cells i j = true := by decide +kernel
  have hmod : preview rand = preview (rand % 7) := by
    rw [preview, preview, show matsInit.length = 7 from rfl, Nat.mod_mod]
  rw [hmod]
  exact hall _ (Nat.mod_lt _ (by decide))

theorem hasCell_rotate {a : Mat} (ha : HasCell a) : HasCell ⟨a.size, a.cells.rotate90Right⟩ := by
  obtain ⟨i, j, hcell⟩ := ha
  refine ⟨j, i.rev, ?_⟩
  rw [rotate90Right_eq_quarter]
  show a.cells i.rev.rev j = true
  rw [Fin.rev_rev]
  exact hcell

/-- A new piece collides on its way, or comes into the first row. -/
theorem enter_cases {fuel : Nat} (hpos : 0 < fuel) (hrow : s.p.1 = 1 - fuel) :
    (s.enter fuel).2.phase = .over ∧ (s.enter fuel).2.pv = s.pv ∨
      (s.enter fuel).2 = { s with p := (0, s.p.2) } := by
  induction fuel generalizing s with
  | zero => exact absurd hpos (Nat.lt_irrefl 0)
  | succ fuel ih =>
    rw [Game.enter, if_pos (by omega)]
    split
    · exact .inl ⟨rfl, rfl⟩
    · split
      · rename_i hzero
        refine .inr ?_
        rw [← hzero]
      · exact ih (by omega) (by dsimp only; omega)

theorem nextRound_cases (hnext : 0 < s.pv.size) (rand : Nat) :
    (s.nextRound rand).2.phase = .over ∧ (s.nextRound rand).2.pv = preview rand ∨
      (s.nextRound rand).2 =
        { vmat := s.vmat
          p := (0, ((w : Int) - s.pv.size).tdiv 2)
          smat := s.pv
          pv := preview rand
          phase := .falling } := by
  rw [Game.nextRound]
  refine enter_cases hnext ?_
  show -((s.pv.size : Int) - 1) = 1 - (s.pv.size : Int)
  omega

theorem clear_nextRound (h : Clear s) (hready : s.phase = .ready) (rand : Nat) :
    Clear (s.nextRound rand).2 := by
  have hfree := inv_nextRound h.free rand
  cases nextRound_cases h.free.next rand with
  | inl hover =>
    refine ⟨hfree, fun hfalling => ?_, ?_, fun _ hnot => absurd hover.1 hnot⟩
    · rw [hover.1] at hfalling
      cases hfalling
    · rw [hover.2]
      exact hasCell_preview rand
  | inr hin =>
    rw [hin] at hfree ⊢
    refine ⟨hfree, fun _ => ⟨le_rfl, h.next⟩, hasCell_preview rand, fun hw _ => h.rows hw ?_⟩
    rw [hready]
    exact Phase.noConfusion

theorem clear_move (h : Clear s) (hfalling : s.phase = .falling) (di : Int) : Clear (s.move di).2 := by
  have hfree := inv_move h.free di
  have hpiece := h.piece hfalling
  cases hmove : (s.move di).1 with
  | true =>
    have hplace : (s.move di).2 = { s with p := (s.move di).2.p } ∧ 0 ≤ (s.move di).2.p.1 := by
      rw [Game.move] at hmove ⊢
      generalize htmp : (if di = 0 then (s.p.1 + 1, s.p.2) else
        if di < 0 then (s.p.1, s.p.2 - 1) else (s.p.1, s.p.2 + 1) : Point) = tmp at hmove ⊢
      have hlow : 0 ≤ tmp.1 := by
        rw [← htmp]
        split_ifs
        · exact Int.add_nonneg hpiece.1 Int.one_nonneg
        · exact hpiece.1
        · exact hpiece.1
      cases hcoll : isCollision s.vmat tmp s.smat.cells with
      | true =>
        rw [hcoll, if_pos rfl] at hmove
        cases hmove
      | false =>
        rw [if_neg Bool.false_ne_true]
        exact ⟨rfl, hlow⟩
    rw [hplace.1] at hfree ⊢
    exact ⟨hfree, fun _ => ⟨hplace.2, hpiece.2⟩, h.next, h.rows⟩
  | false =>
    rw [(move_spec _ _).2.2 hmove] at hfree ⊢
    split
    · rename_i hdi
      rw [if_pos hdi] at hfree
      refine ⟨hfree, fun h => (by cases h), h.next, fun hw _ => ?_⟩
      have hrows := h.rows hw (by rw [hfalling]; exact Phase.noConfusion)
      exact not_full_of_rows hw (rows_land (h.free.fits hfalling) hpiece.1 hpiece.2 hrows)
    · exact h

theorem clear_rotate (h : Clear s) (hfalling : s.phase = .falling) : Clear s.rotate.2 := by
  have hfree := inv_rotate h.free
  rw [Game.rotate] at hfree ⊢
  dsimp only at hfree ⊢
  split
  · exact h
  · rename_i hcoll
    rw [if_neg hcoll] at hfree
    exact ⟨hfree, fun _ => ⟨(h.piece hfalling).1, hasCell_rotate (h.piece hfalling).2⟩, h.next, h.rows⟩

theorem clear_step {ev : Event} (h : Clear s) (hstep : Step s ev t) : Clear t := by
  obtain ⟨henabled, rfl⟩ := hstep
  cases ev with
  | nextRound rand => exact clear_nextRound h henabled rand
  | move di => exact clear_move h henabled di
  | rotate => exact clear_rotate h henabled

theorem clear_run {rand : Nat} {evs : List Event} (hrun : Run Step (Game.newGame h w rand) evs s) :
    Clear s := by
  refine hrun.invariant (P := Clear) (fun _ _ _ h hstep => clear_step h hstep) ?_
  refine ⟨inv_run (.nil : Run Step (Game.newGame h w rand) [] _), fun h => (by cases h), hasCell_preview rand, fun hw _ y => ?_⟩
  show full (fun _ => false) = false
  rw [full, List.all_eq_false]
  exact ⟨⟨0, hw⟩, List.mem_finRange _, Bool.false_ne_true⟩

/-! ## The main result -/

/-- In every run on a board of any size: before a landing no row is full; after it the
board is the one with the piece added, less its full rows and with as many empty ones
on top, no row is full, and the cells that are gone are those of the full rows. -/
theorem landing_run {rand : Nat} {evs : List Event} (hrun : Run Step (Game.newGame h w rand) evs s)
    (hfalling : s.phase = .falling) (hland : (s.move 0).1 = false) :
    (∀ y, full (s.vmat y) = false) ∧ ∃ merged, Merges s merged ∧
      (s.move 0).2.vmat.rows = List.replicate (merged.rows.countP full) emptyRow ++
        merged.rows.filter (fun r => !full r) ∧
      (∀ y, full ((s.move 0).2.vmat y) = false) ∧
      merged.filled = (s.move 0).2.vmat.filled + w * merged.rows.countP full := by
  have hclear := clear_run hrun
  obtain ⟨hlow, hpiece⟩ := hclear.piece hfalling
  have hfits := hclear.free.fits hfalling
  have hw := (board_pos hfits hlow hpiece).2
  have hrows := hclear.rows hw (by rw [hfalling]; exact Phase.noConfusion)
  have hcollapse := rows_land hfits hlow hpiece hrows
  rw [(move_spec _ _).2.2 hland, if_pos rfl]
  exact ⟨hrows, orAssign s.vmat s.p s.smat.cells, fun y x => orAssign_eq_true, hcollapse,
    not_full_of_rows hw hcollapse, filled_of_rows hcollapse⟩

/-- A square falls between two walls that touch it. -/
theorem landing_run_small :
    let landed := ([.nextRound 0, .move 0].foldl Game.next (Game.newGame 3 2 0)).move 0
    full (landed.2.vmat 0) = false ∧ full (landed.2.vmat 1) = false ∧ full (landed.2.vmat 2) = false := by
  have hrun : Run Step (Game.newGame 3 2 0) [.nextRound 0, .move 0]
      ([.nextRound 0, .move 0].foldl Game.next (Game.newGame 3 2 0)) := Run.plays (by decide +kernel)
  obtain ⟨_, _, _, _, hfull, _⟩ := landing_run hrun (by decide +kernel) (by decide +kernel)
  exact ⟨hfull 0, hfull 1, hfull 2⟩

end Collapse

end CppSnippets.Tetris
