import Mathlib.Data.Int.Order.Basic

/-!
# The scalers of the video window

`renderFrame` chooses a scaler by the width of the image and centres or cuts the
picture. Pointers are byte offsets from the first pixel of the image and of the
window; each access comes with the row its row pointer has been stepped to. What is
stored is left out, and so is what the products of sizes do beyond an `int`, which no
image or buffer in memory reaches.
-/
namespace CppSnippets.Render

/-- A grey image: a byte for each pixel. -/
structure Image where
  width : Nat
  height : Nat
  stride : Int

/-- `ANativeWindow_Buffer`, four bytes for each pixel; the stride is in pixels. -/
structure WindowBuffer where
  width : Nat
  height : Nat
  stride : Int
  format : Int

/-- A pixel of the image that is read, or one of the buffer that is stored. -/
inductive Access where
  | read (row : Nat) (addr : Int)
  | store (row : Nat) (addr : Int)
  deriving DecidableEq

/-- What the loops of the four scalers differ in. -/
structure Scaler where
  /-- The pixels that one load brings. -/
  loads : Nat
  /-- What `src` is advanced by, and `x`. -/
  src : Nat
  /-- The pixels that are stored, each `dst` advanced by one. -/
  stores : Nat
  /-- What `y` is advanced by, and `src_row`. -/
  rows : Nat
  skips : Nat → Bool
  round : Int → Int

/-- The turns of `for (i = 0; i < n; i += d)`. -/
def turns (n : Int) (d : Nat) : Nat := ((n + (d - 1)) / d).toNat

namespace Scaler

/-- The inner loop: one row of the image to one of the buffer. -/
def row (sc : Scaler) (y d : Nat) : Nat → Int → Int → List Access
  | 0, _, _ => []
  | n + 1, src, dst =>
    (List.range sc.loads).map (fun i => .read y (src + i)) ++
      (List.range sc.stores).map (fun i => .store d (dst + 4 * i)) ++
      sc.row y d n (src + sc.src) (dst + 4 * sc.stores)

/-- The outer loop, from row `y` of the image and row `d` of the buffer. -/
def scale (sc : Scaler) (stridein strideout w : Int) : Nat → Nat → Nat → Int → Int → List Access
  | 0, _, _, _, _ => []
  | n + 1, y, d, srcRow, dstRow =>
    if sc.skips y then
      sc.scale stridein strideout w n (y + sc.rows) d (srcRow + stridein * sc.rows) dstRow
    else
      sc.row y d (turns w sc.src) srcRow dstRow ++
        sc.scale stridein strideout w n (y + sc.rows) (d + 1) (srcRow + stridein * sc.rows)
          (dstRow + strideout)

/-- A scaler, called with the pointers and strides in bytes. -/
def run (sc : Scaler) (src stridein dst strideout w h : Int) : List Access :=
  sc.scale stridein strideout (sc.round w) (turns (sc.round h) sc.rows) 0 0 src dst

end Scaler

def gray : Scaler := ⟨4, 4, 4, 1, fun _ => false, id⟩
def fourOfThree : Scaler := ⟨4, 4, 3, 1, fun y => y % 4 == 0, id⟩
def threeOfOne : Scaler := ⟨1, 3, 1, 3, fun _ => false, fun n => n.tdiv 3 * 3⟩
def twoOfOne : Scaler := ⟨1, 2, 1, 2, fun _ => false, id⟩

def renderGraytoRGBX := gray.run
def renderto4of3RGBX := fourOfThree.run
def renderto3of1RGBX := threeOfOne.run
def renderto2of1RGBX := twoOfOne.run

inductive ScaleType where
  | scaleNone
  | scale3P4
  | scale1P2
  | scale1P3
  deriving DecidableEq

def scaleType (width : Nat) : ScaleType :=
  if width < 600 then .scaleNone
  else if width ≤ 800 then .scale3P4
  else if width ≤ 1280 then .scale1P2
  else if width ≤ 1600 then .scale1P3
  else .scaleNone

def windowFormatRgba8888 : Int := 1

def windowFormatRgbx8888 : Int := 1

def WindowBuffer.supported (b : WindowBuffer) : Bool :=
  b.format == windowFormatRgba8888 || b.format == windowFormatRgbx8888

/-- A case of the switch: a picture of `srcw` columns and `srch` rows is centred, or cut
to what `cut` says that the buffer takes. -/
def renderScaled (render : Int → Int → Int → Int → Int → Int → List Access) (p : Image)
    (b : WindowBuffer) (srcw srch : Int) (cut : Int → Int) : List Access :=
  let dstw : Int := b.width
  let dsth : Int := b.height
  let offset := (dstw - srcw).tdiv 2
  let pdst := if offset > 0 then offset * 4 else 0
  let psrc := if offset > 0 then 0 else 0 - offset
  let minw := if offset > 0 then (p.width : Int) else cut dstw
  let minh := if dsth > srch then (p.height : Int) else cut dsth
  render psrc p.stride pdst (b.stride * 4) minw minh

/-- What the scaler does; the rows below the image are cleared by a `memset` after it. -/
def renderFrame (p : Option Image) (window : Bool) (lock : Option WindowBuffer) : List Access :=
  match p, window, lock with
  | some p, true, some b =>
    if b.supported then
      let w : Int := p.width
      let h : Int := p.height
      match scaleType p.width with
      | .scale3P4 =>
        renderScaled renderto4of3RGBX p b ((w * 3).tdiv 4) ((h * 3).tdiv 4) fun n => (n * 4).tdiv 3
      | .scale1P3 => renderScaled renderto3of1RGBX p b (w.tdiv 3) (h.tdiv 3) fun n => n * 3
      | .scale1P2 => renderScaled renderto2of1RGBX p b (w.tdiv 2) (h.tdiv 2) fun n => n * 2
      | .scaleNone => renderScaled renderGraytoRGBX p b w h fun n => n
    else []
  | _, _, _ => []

end CppSnippets.Render
