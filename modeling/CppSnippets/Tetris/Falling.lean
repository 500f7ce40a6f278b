import Mathlib.Data.List.GetD
import CppSnippets.Tetris.Game

/-!
# The falling piece

Every change of the place or the cells of a falling piece is tried with
`is_collision` first, which sees the walls and the bottom through `at`. A landing
adds the cells of the piece that lie on the board, since `or_assign` goes through
`at` too.
-/
namespace CppSnippets.Tetris.Falling

open CppSnippets.Lib Array2d

variable {h w r c : Nat} {s t : Game h w}

/-- The piece fills this cell of the board. -/
def Covers (s : Game h w) (y : Fin h) (x : Fin w) : Prop :=
  ∃ i j, s.smat.cells i j = true ∧ s.p = ((y.val : Int) - i.val, (x.val : Int) - j.val)

/-- The filled cells of the piece lie between the walls and above the bottom, and
on empty cells where they lie on the board. -/
structure Fits (s : Game h w) : Prop where
  walls : ∀ i j, s.smat.cells i j = true → 0 ≤ s.p.2 + j.val ∧ s.p.2 + j.val < w
  bottom : ∀ i j, s.smat.cells i j = true → s.p.1 + i.val < h
  empty : ∀ y x, Covers s y x → s.vmat y x = false

/-- The place that a move leads to: one row down, or one column to a side. -/
def moved (p : Point) (di : Int) : Point := if di = 0 then (p.1 + 1, p.2) else (p.1, p.2 + di.sign)

/-- The piece turned where it is. -/
def turned (s : Game h w) : Game h w := { s with smat := ⟨s.smat.size, s.smat.cells.rotate90Right⟩ }

/-- The board with the piece, and nothing else. -/
def Merges (s : Game h w) (merged : Array2d h w) : Prop :=
  ∀ y x, merged y x = true ↔ s.vmat y x = true ∨ Covers s y x

/-! ## What collides and what is added -/

theorem at_eq_false {va : Array2d h w} {a : Point} : va.at' a = false ↔
    0 ≤ a.2 ∧ a.2 < w ∧ a.1 < h ∧ (0 ≤ a.1 → va.cell a.1.toNat a.2.toNat = false) := by
  rw [at']
  split
  · rename_i hout
    refine ⟨fun h => (by cases h), fun h => ?_⟩
    omega
  · rename_i hin
    split
    · rename_i habove
      exact ⟨fun _ => ⟨by omega, by omega, by omega, fun h => by omega⟩, fun _ => rfl⟩
    · exact ⟨fun h => ⟨by omega, by omega, by omega, fun _ => h⟩, fun h => h.2.2.2 (by omega)⟩

theorem isCollision_eq_false {va : Array2d h w} {bp : Point} {n : Array2d r c} :
    isCollision va bp n = false ↔
      ∀ i j, n i j = true → va.at' (bp.1 + i.val, bp.2 + j.val) = false := by
  rw [isCollision, List.any_eq_false]
  constructor
  · intro hall i j hn
    have hrow := hall i (List.mem_finRange i)
    rw [Bool.not_eq_true, List.any_eq_false] at hrow
    have hcell := hrow j (List.mem_finRange j)
    rw [hn, Bool.true_and, Bool.not_eq_true] at hcell
    exact hcell
  · intro hall i _
    rw [Bool.not_eq_true, List.any_eq_false]
    intro j _
    cases hn : n i j with
    | false => exact Bool.false_ne_true
    | true =>
      rw [hall i j hn]
      exact Bool.false_ne_true

/-- What each step of a fold may make true. -/
theorem foldl_or_iff {α β : Type*} {step : β → α → β} {P : β → Prop} {Q : α → Prop}
    (hstep : ∀ b a, P (step b a) ↔ P b ∨ Q a) (l : List α) (b : β) :
    P (l.foldl step b) ↔ P b ∨ ∃ a ∈ l, Q a := by
  induction l generalizing b with
  | nil => simp
  | cons a l ih =>
    rw [List.foldl_cons, ih, hstep, or_assoc, List.exists_mem_cons_iff]

theorem orAt_eq_true {va : Array2d h w} {a : Point} {v : Bool} {y : Fin h} {x : Fin w} :
    va.orAt a v y x = true ↔ va y x = true ∨ v = true ∧ a = ((y.val : Int), (x.val : Int)) := by
  rw [orAt]
  split
  · rename_i ha
    rw [Bool.or_eq_true, and_iff_left ha]
  · rename_i ha
    exact ⟨.inl, fun h => h.elim id fun h' => absurd h'.2 ha⟩

theorem orAssign_eq_true {va : Array2d h w} {bp : Point} {n : Array2d r c} {y : Fin h} {x : Fin w} :
    orAssign va bp n y x = true ↔ va y x = true ∨
      ∃ i j, n i j = true ∧ bp = ((y.val : Int) - i.val, (x.val : Int) - j.val) := by
  have hcell : ∀ i j, (bp.1 + i, bp.2 + j) = ((y.val : Int), (x.val : Int)) ↔
      bp = ((y.val : Int) - i, (x.val : Int) - j) := by
    intro i j
    rw [Prod.ext_iff, Prod.ext_iff]
    dsimp only
    omega
  have hrow : ∀ (va : Array2d h w) (i : Fin r), (List.finRange c).foldl (fun va j =>
      va.orAt (bp.1 + i.val, bp.2 + j.val) (n i j)) va y x = true ↔ va y x = true ∨
        ∃ j, n i j = true ∧ bp = ((y.val : Int) - i.val, (x.val : Int) - j.val) := by
    intro va i
    have hfold := foldl_or_iff (P := fun va : Array2d h w => va y x = true)
      (fun va j => orAt_eq_true (a := (bp.1 + i.val, bp.2 + j.val)) (v := n i j)) (List.finRange c) va
    simp only [List.mem_finRange, true_and, hcell] at hfold
    exact hfold
  have hfold := foldl_or_iff (P := fun va : Array2d h w => va y x = true) hrow (List.finRange r) va
  simp only [List.mem_finRange, true_and] at hfold
  exact hfold

/-! ## The invariant -/

/-- A falling piece does not collide, and the next one has a cell at least. -/
structure Inv (s : Game h w) : Prop where
  free : s.phase = .falling → isCollision s.vmat s.p s.smat.cells = false
  next : 0 < s.pv.size

/-- What `is_collision` tries is whether the piece fits. -/
theorem fits_iff : Fits s ↔ isCollision s.vmat s.p s.smat.cells = false := by
  rw [isCollision_eq_false]
  constructor
  · intro hfits i j hcell
    obtain ⟨hleft, hright⟩ := hfits.walls i j hcell
    have hbottom := hfits.bottom i j hcell
    refine at_eq_false.mpr ⟨hleft, hright, hbottom, fun htop => ?_⟩
    have hrow : (s.p.1 + i.val).toNat < h := by omega
    have hcol : (s.p.2 + j.val).toNat < w := by omega
    dsimp only at htop hleft hright ⊢
    rw [cell, dif_pos ⟨hrow, hcol⟩]
    refine hfits.empty ⟨_, hrow⟩ ⟨_, hcol⟩ ⟨i, j, hcell, ?_⟩
    rw [Prod.ext_iff]
    dsimp only
    omega
  · intro hfree
    have hat : ∀ i j, s.smat.cells i j = true → _ := fun i j hcell => at_eq_false.mp (hfree i j hcell)
    refine ⟨fun i j hcell => ?_, fun i j hcell => ?_, ?_⟩
    · exact ⟨(hat i j hcell).1, (hat i j hcell).2.1⟩
    · exact (hat i j hcell).2.2.1
    · rintro y x ⟨i, j, hcell, hp⟩
      have hempty := (hat i j hcell).2.2.2
      rw [hp] at hempty
      simp only [Int.sub_add_cancel] at hempty
      have hboard := hempty (Int.natCast_nonneg _)
      rw [Int.toNat_natCast, Int.toNat_natCast, cell, dif_pos ⟨y.isLt, x.isLt⟩] at hboard
      exact hboard

theorem Inv.fits (h : Inv s) (hfalling : s.phase = .falling) : Fits s := fits_iff.mpr (h.free hfalling)

theorem preview_size (rand : Nat) : 0 < (preview rand).size := by
  have hall : ∀ p ∈ matsInit, 0 < p.length := by decide
  have hlt : rand % matsInit.length < matsInit.length := Nat.mod_lt _ (by decide)
  show 0 < Nat.sqrt (matsInit.getD (rand % matsInit.length) []).length
  rw [List.getD_eq_getElem _ _ hlt, Nat.sqrt_pos]
  exact hall _ (List.getElem_mem hlt)

/-- The loop ends in the first row, with a piece that does not collide, or with an
end of the game. -/
theorem inv_enter {fuel : Nat} (hpos : 0 < fuel) (hrow : s.p.1 = 1 - fuel) (hnext : 0 < s.pv.size) :
    Inv (s.enter fuel).2 := by
  induction fuel generalizing s with
  | zero => exact absurd hpos (Nat.lt_irrefl 0)
  | succ fuel ih =>
    rw [Game.enter, if_pos (by omega)]
    cases hcoll : isCollision s.vmat s.p s.smat.cells with
    | true =>
      rw [if_pos rfl]
      refine ⟨fun h => ?_, hnext⟩
      cases h
    | false =>
      rw [if_neg Bool.false_ne_true]
      split
      · exact ⟨fun _ => hcoll, hnext⟩
      · exact ih (by omega) (by dsimp only; omega) hnext

theorem inv_nextRound (h : Inv s) (rand : Nat) : Inv (s.nextRound rand).2 := by
  rw [Game.nextRound]
  refine inv_enter h.next ?_ (preview_size rand)
  show -((s.pv.size : Int) - 1) = 1 - (s.pv.size : Int)
  omega

theorem move_eq (s : Game h w) (di : Int) : s.move di =
    if isCollision s.vmat (moved s.p di) s.smat.cells then
      (false, if di = 0 then { s with vmat := s.land, phase := .ready } else s)
    else (true, { s with p := moved s.p di }) := by
  have hplace : (if di = 0 then (s.p.1 + 1, s.p.2) else
      if di < 0 then (s.p.1, s.p.2 - 1) else (s.p.1, s.p.2 + 1) : Point) = moved s.p di := by
    rw [moved]
    split
    · rfl
    · rename_i hdi
      split
      · rename_i hneg
        rw [Int.sign_eq_neg_one_of_neg hneg]
        rfl
      · rw [Int.sign_eq_one_of_pos (by omega)]
  rw [Game.move, hplace]

theorem inv_move (h : Inv s) (di : Int) : Inv (s.move di).2 := by
  rw [move_eq]
  cases hcoll : isCollision s.vmat (moved s.p di) s.smat.cells with
  | true =>
    rw [if_pos rfl]
    dsimp only
    split
    · refine ⟨fun h => ?_, h.next⟩
      cases h
    · exact h
  | false =>
    rw [if_neg Bool.false_ne_true]
    exact ⟨fun _ => hcoll, h.next⟩

theorem inv_rotate (h : Inv s) : Inv s.rotate.2 := by
  rw [Game.rotate]
  dsimp only
  cases hcoll : isCollision s.vmat s.p s.smat.cells.rotate90Right with
  | true =>
    rw [if_pos rfl]
    exact h
  | false =>
    rw [if_neg Bool.false_ne_true]
    exact ⟨fun _ => hcoll, h.next⟩

theorem inv_step {ev : Event} (h : Inv s) (hstep : Step s ev t) : Inv t := by
  obtain ⟨_, rfl⟩ := hstep
  cases ev with
  | nextRound rand => exact inv_nextRound h rand
  | move di => exact inv_move h di
  | rotate => exact inv_rotate h

theorem inv_run {rand : Nat} {evs : List Event} (h : Run Step (Game.newGame h w rand) evs s) : Inv s := by
  refine h.invariant (P := Inv) (fun _ _ _ hs hstep => inv_step hs hstep) ⟨fun h => ?_, preview_size rand⟩
  cases h

/-! ## The main result -/

/-- A move fails if and only if the piece would not fit; a move that fails changes the
board if it is one down, and nothing otherwise. -/
theorem move_spec (s : Game h w) (di : Int) :
    ((s.move di).1 = true ↔ Fits { s with p := moved s.p di }) ∧
    ((s.move di).1 = true → (s.move di).2 = { s with p := moved s.p di }) ∧
    ((s.move di).1 = false →
      (s.move di).2 = if di = 0 then { s with vmat := s.land, phase := .ready } else s) := by
  rw [move_eq, fits_iff]
  cases isCollision s.vmat (moved s.p di) s.smat.cells with
  | true =>
    rw [if_pos rfl]
    exact ⟨iff_of_false Bool.false_ne_true nofun, fun h => absurd h Bool.false_ne_true, fun _ => rfl⟩
  | false =>
    rw [if_neg Bool.false_ne_true]
    exact ⟨iff_of_true rfl rfl, fun _ => rfl, nofun⟩

theorem rotate_spec (s : Game h w) :
    (s.rotate.1 = true ↔ Fits (turned s)) ∧ (s.rotate.1 = true → s.rotate.2 = turned s) ∧
    (s.rotate.1 = false → s.rotate.2 = s) := by
  rw [Game.rotate, fits_iff]
  dsimp only [turned]
  cases isCollision s.vmat s.p s.smat.cells.rotate90Right with
  | true =>
    rw [if_pos rfl]
    exact ⟨iff_of_false Bool.false_ne_true nofun, fun h => absurd h Bool.false_ne_true, fun _ => rfl⟩
  | false =>
    rw [if_neg Bool.false_ne_true]
    exact ⟨iff_of_true rfl rfl, fun _ => rfl, nofun⟩

/-- In every run on a board of any size: a falling piece fits; it moves and turns if and
only if it fits then, and nothing else changes; what fails and is not a landing leaves
the state; and a landing leaves the board with the piece added, less its full rows. -/
theorem tetris_run {rand : Nat} {evs : List Event}
    (hrun : Run Step (Game.newGame h w rand) evs s) (hfalling : s.phase = .falling) : Fits s ∧
      (∀ di, ((s.move di).1 = true ↔ Fits { s with p := moved s.p di }) ∧
        ((s.move di).1 = true → (s.move di).2 = { s with p := moved s.p di })) ∧
      (∀ di, di ≠ 0 → (s.move di).1 = false → (s.move di).2 = s) ∧
      (s.rotate.1 = true ↔ Fits (turned s)) ∧ (s.rotate.1 = true → s.rotate.2 = turned s) ∧
      (s.rotate.1 = false → s.rotate.2 = s) ∧
      ((s.move 0).1 = false → ∃ merged, Merges s merged ∧ (s.move 0).2 =
        { s with
          vmat := merged.collapse (max 0 s.p.1).toNat (min (s.p.1 + s.smat.size) ((h : Int) - 1)).toNat 0
          phase := .ready }) := by
  obtain ⟨hrotates, hrotated, hstays⟩ := rotate_spec s
  refine ⟨(inv_run hrun).fits hfalling, fun di => ?_, fun di hdi hfail => ?_, hrotates, hrotated, hstays,
    fun hfail => ?_⟩
  · exact ⟨(move_spec s di).1, (move_spec s di).2.1⟩
  · rw [(move_spec s di).2.2 hfail, if_neg hdi]
  · refine ⟨orAssign s.vmat s.p s.smat.cells, fun y x => orAssign_eq_true, ?_⟩
    rw [(move_spec s 0).2.2 hfail, if_pos rfl]
    rfl

/-- A piece that has turned, moved to the side and down, on a small board. -/
theorem tetris_run_small : Fits
    ([.nextRound 3, .rotate, .move 0, .move 1].foldl Game.next (Game.newGame 5 4 1)) := by
  have hrun : Run Step (Game.newGame 5 4 1) [.nextRound 3, .rotate, .move 0, .move 1]
      ([.nextRound 3, .rotate, .move 0, .move 1].foldl Game.next (Game.newGame 5 4 1)) :=
    Run.plays (by decide +kernel)
  exact (tetris_run hrun (by decide +kernel)).1

end CppSnippets.Tetris.Falling
