import CppSnippets.Lib.Run
import CppSnippets.Tetris.Board

/-!
# The game

One piece falls at a time. A new one comes when the last one has landed, until one
collides above the board. The random numbers come with the events; the times of the
game are left out, since nothing reads them.
-/
namespace CppSnippets.Tetris

open CppSnippets.Lib

/-- Where `main` is in its loop. -/
inductive Phase where
  /-- `next_round` is called next. -/
  | ready
  | falling
  | over
  deriving DecidableEq

/-- `Main`, with a board of `h` rows and `w` columns. -/
structure Game (h w : Nat) where
  vmat : Array2d h w
  p : Point
  smat : Mat
  pv : Mat
  phase : Phase

namespace Game

variable {h w : Nat}

/-- `new_game`. -/
def newGame (h w : Nat) (rand : Nat) : Game h w :=
  { vmat := fun _ _ => false
    p := (0, 0)
    smat := ⟨0, fun _ _ => false⟩
    pv := preview rand
    phase := .ready }

def popPreview (s : Game h w) (rand : Nat) : Game h w := { s with smat := s.pv, pv := preview rand }

/-- The loop of `next_round`, of at most `fuel` turns. -/
def enter (s : Game h w) : Nat → Bool × Game h w
  | 0 => (true, s)
  | fuel + 1 =>
    if s.p.1 ≤ 0 then
      if isCollision s.vmat s.p s.smat.cells then
        (false, { s with vmat := orAssign s.vmat s.p s.smat.cells, phase := .over })
      else if s.p.1 = 0 then (true, s)
      else enter { s with p := (s.p.1 + 1, s.p.2) } fuel
    else (true, s)

def nextRound (s : Game h w) (rand : Nat) : Bool × Game h w :=
  let s := s.popPreview rand
  let p1 := ((w : Int) - s.smat.size).tdiv 2
  let p0 := -((s.smat.size : Int) - 1)
  enter { s with p := (p0, p1), phase := .falling } s.smat.size

/-- The board after a landing: the piece is added, and full rows go. -/
def land (s : Game h w) : Array2d h w :=
  let rb := min (s.p.1 + s.smat.size) ((h : Int) - 1)
  let r0 := max 0 s.p.1
  (orAssign s.vmat s.p s.smat.cells).collapse r0.toNat rb.toNat 0

def move (s : Game h w) (di : Int) : Bool × Game h w :=
  let tmp : Point :=
    if di = 0 then (s.p.1 + 1, s.p.2)
    else if di < 0 then (s.p.1, s.p.2 - 1)
    else (s.p.1, s.p.2 + 1)
  if isCollision s.vmat tmp s.smat.cells then
    (false, if di = 0 then { s with vmat := s.land, phase := .ready } else s)
  else (true, { s with p := tmp })

def rotate (s : Game h w) : Bool × Game h w :=
  let tmp : Mat := ⟨s.smat.size, s.smat.cells.rotate90Right⟩
  if isCollision s.vmat s.p tmp.cells then (false, s) else (true, { s with smat := tmp })

end Game

inductive Event where
  | nextRound (rand : Nat)
  | move (di : Int)
  | rotate

variable {h w : Nat}

/-- As `main` calls them: a new piece when the last one has landed, and moves while
one falls. -/
def Enabled (s : Game h w) : Event → Prop
  | .nextRound _ => s.phase = .ready
  | .move _ => s.phase = .falling
  | .rotate => s.phase = .falling

instance (s : Game h w) : ∀ ev, Decidable (Enabled s ev)
  | .nextRound _ => inferInstanceAs (Decidable (_ = _))
  | .move _ => inferInstanceAs (Decidable (_ = _))
  | .rotate => inferInstanceAs (Decidable (_ = _))

def Game.next (s : Game h w) : Event → Game h w
  | .nextRound rand => (s.nextRound rand).2
  | .move di => (s.move di).2
  | .rotate => s.rotate.2

def Step : Game h w → Event → Game h w → Prop := Moves Enabled Game.next

end CppSnippets.Tetris
