import Mathlib.Data.Nat.Sqrt
import Mathlib.Data.List.FinRange

/-!
# Boards and pieces

Arrays of cells that are filled or not, as the game's `multi_array`s hold them with the
values 1 and 0; a square of any cells can be turned. A piece is a square array that may
hang over the edges of the board: what lies beside and below the board counts as filled,
and what lies above as empty.
-/
namespace CppSnippets.Tetris

/-- `Array2d`, by rows. -/
abbrev Array2d (h w : Nat) (α : Type := Bool) := Fin h → Fin w → α

/-- Row and column, from the upper left corner of the board. -/
abbrev Point := Int × Int

namespace Array2d

variable {h w : Nat} {α : Type} [Inhabited α]

/-- The cell in a row and a column. -/
def cell (m : Array2d h w α) (y x : Nat) : α :=
  if hyx : y < h ∧ x < w then m ⟨y, hyx.1⟩ ⟨x, hyx.2⟩ else default

/-- `Array2dx::at`, read. -/
def at' (m : Array2d h w) (a : Point) : Bool :=
  if a.2 < 0 ∨ a.2 ≥ w ∨ a.1 ≥ h then true
  else if a.1 < 0 then false
  else m.cell a.1.toNat a.2.toNat

/-- `at(a) |= v`: off the board it changes `dummy_` only. -/
def orAt (m : Array2d h w) (a : Point) (v : Bool) : Array2d h w :=
  fun y x => if a = ((y.val : Int), (x.val : Int)) then m y x || v else m y x

/-! ## Rows -/

def row (m : Array2d h w) (y : Nat) : Fin w → Bool :=
  if hy : y < h then m ⟨y, hy⟩ else fun _ => false

def setRow (m : Array2d h w) (y : Nat) (r : Fin w → Bool) : Array2d h w :=
  fun i => if i.val = y then r else m i

def clear (m : Array2d h w) (y : Nat) : Array2d h w := m.setRow y fun _ => false

/-- `std::find(row.begin(), row.end(), 0) == row.end()`. -/
def full (r : Fin w → Bool) : Bool := (List.finRange w).all r

/-- `collapse`: the rows from `rb` up, where the rows down from `r0` may be full and
`nc` of them have been cleared. -/
def collapse (m : Array2d h w) (r0 : Nat) (rb nc : Nat) : Array2d h w :=
  let row := m.row rb
  let (m, nc, stop) :=
    if rb ≥ r0 then
      if full row then (m.clear rb, nc + 1, false)
      else if nc > 0 then ((m.setRow (rb + nc) row).clear rb, nc, false)
      else (m, nc, rb == r0)
    else if nc > 0 then ((m.setRow (rb + nc) row).clear rb, nc, false)
    else (m, nc, false)
  if stop then m
  else
    match rb with
    | 0 => m
    | rb + 1 => m.collapse r0 rb nc

/-! ## Turning a square -/

def setCell (m : Array2d h w α) (y x : Nat) (v : α) : Array2d h w α :=
  fun i j => if i.val = y ∧ j.val = x then v else m i j

def swap (m : Array2d h w α) (a b : Nat × Nat) : Array2d h w α :=
  (m.setCell a.1 a.2 (m.cell b.1 b.2)).setCell b.1 b.2 (m.cell a.1 a.2)

/-- Four cells of the ring that begins at `k` and has sides of `s`, the `i`-th ones
from its corners. -/
def turn4 (m : Array2d h w α) (k s i : Nat) : Array2d h w α :=
  let p0 := (k, k + i)
  let p1 := (k + i, k + (s - 1))
  let p2 := (k + (s - 1), k + (s - 1 - i))
  let p3 := (k + (s - 1 - i), k)
  ((m.swap p0 p1).swap p0 p2).swap p0 p3

/-- `rotate90_right` of the view of `s` rows and columns that begins at `k`. -/
def rotate90RightFrom (m : Array2d h w α) (k : Nat) : Nat → Array2d h w α
  | 0 => m
  | 1 => m
  | s + 2 =>
    let m := (List.range (s + 1)).foldl (fun m i => m.turn4 k (s + 2) i) m
    if s = 0 then m else m.rotate90RightFrom (k + 1) s

def rotate90Right {n : Nat} (m : Array2d n n α) : Array2d n n α := m.rotate90RightFrom 0 n

end Array2d

variable {h w r c : Nat}

/-- Some filled cell of the array lies on a filled cell of the board. -/
def isCollision (va : Array2d h w) (bp : Point) (n : Array2d r c) : Bool :=
  (List.finRange r).any fun i => (List.finRange c).any fun j =>
    n i j && va.at' (bp.1 + i.val, bp.2 + j.val)

def orAssign (va : Array2d h w) (bp : Point) (n : Array2d r c) : Array2d h w :=
  (List.finRange r).foldl (fun va i =>
    (List.finRange c).foldl (fun va j => va.orAt (bp.1 + i.val, bp.2 + j.val) (n i j)) va) va

/-- A square array of any size. -/
structure Mat where
  size : Nat
  cells : Array2d size size

namespace Mat

/-- `resize` and `assign`, by rows. -/
def ofFlat (x : Nat) (cells : List Nat) : Mat :=
  ⟨x, fun i j => cells.getD (i.val * x + j.val) 0 != 0⟩

end Mat

/-- `mats_init`. -/
def matsInit : List (List Nat) :=
  [ [1, 1,
     1, 1],
    [0, 1, 0,
     1, 1, 1,
     0, 0, 0],
    [1, 1, 0,
     0, 1, 1,
     0, 0, 0],
    [0, 1, 1,
     1, 1, 0,
     0, 0, 0],
    [1, 1, 0,
     0, 1, 0,
     0, 1, 0],
    [0, 1, 1,
     0, 1, 0,
     0, 1, 0],
    [0, 1, 0, 0,
     0, 1, 0, 0,
     0, 1, 0, 0,
     0, 1, 0, 0] ]

/-- The piece for a random number. -/
def preview (rand : Nat) : Mat :=
  let p := matsInit.getD (rand % matsInit.length) []
  Mat.ofFlat (Nat.sqrt p.length) p

end CppSnippets.Tetris
