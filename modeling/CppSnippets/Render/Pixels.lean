import Mathlib.Logic.Function.Basic
import CppSnippets.Lib.Bytes
import CppSnippets.Render.Bounds

/-!
# The picture in the window

The scalers once more, now with what they load and store. An image is a byte at each
offset from its first pixel, the buffer a word at each offset from `bits`: all stores
are of words, at offsets that four divides, and no row of a buffer reaches into the next.
Against this stands `source`, which says where a pixel of the window comes from.
-/
namespace CppSnippets.Render

open CppSnippets.Lib

abbrev Pixels := Int → UInt8
abbrev Bits := Int → UInt32

/-- A load through `src`, which points to words in two of the scalers. -/
def Scaler.load (sc : Scaler) (img : Pixels) (src : Int) : UInt32 :=
  if sc.loads = 4 then ofBe32 (img (src + 3)) (img (src + 2)) (img (src + 1)) (img src)
  else (img src).toUInt32

/-- `(v>>(8*i))&0xFF` -/
def lane (v : UInt32) (i : Nat) : UInt32 := (v >>> .ofNat (8 * i)) &&& 0xff

/-- `(v<<16)|(v<<8)|(v)` -/
def grey (v : UInt32) : UInt32 := v <<< 16 ||| v <<< 8 ||| v

def storeAt (bits : Bits) (addr : Int) (v : UInt32) : Bits := Function.update bits addr v

namespace Scaler

/-- The stores of one group, the first at `dst`. -/
def storeLanes (v : UInt32) (dst : Int) : Nat → Bits → Bits
  | 0, bits => bits
  | n + 1, bits => storeAt (storeLanes v dst n bits) (dst + 4 * n) (grey (lane v n))

/-- The inner loop. -/
def paintRow (sc : Scaler) (img : Pixels) : Nat → Int → Int → Bits → Bits
  | 0, _, _, bits => bits
  | n + 1, src, dst, bits =>
    sc.paintRow img n (src + sc.src) (dst + 4 * sc.stores)
      (storeLanes (sc.load img src) dst sc.stores bits)

/-- The outer loop; `y` is the counter of the source. -/
def paintRows (sc : Scaler) (img : Pixels) (stridein strideout w : Int) :
    Nat → Nat → Int → Int → Bits → Bits
  | 0, _, _, _, bits => bits
  | n + 1, y, srcRow, dstRow, bits =>
    if sc.skips y then
      sc.paintRows img stridein strideout w n (y + sc.rows) (srcRow + stridein * sc.rows) dstRow bits
    else
      sc.paintRows img stridein strideout w n (y + sc.rows) (srcRow + stridein * sc.rows)
        (dstRow + strideout) (sc.paintRow img (turns w sc.src) srcRow dstRow bits)

/-- A scaler, called with the pointers and strides in bytes. -/
def paint (sc : Scaler) (img : Pixels) (src stridein dst strideout w h : Int) (bits : Bits) : Bits :=
  sc.paintRows img stridein strideout (sc.round w) (turns (sc.round h) sc.rows) 0 src dst bits

end Scaler

/-- `memset(pstart, 0, msize)`, of whole words. -/
def clear (start size : Int) (bits : Bits) : Bits :=
  fun a => if start ≤ a ∧ a < start + size then 0 else bits a

/-- A case of the switch, as in `renderScaled`. -/
def paintScaled (sc : Scaler) (img : Pixels) (p : Image) (b : WindowBuffer) (srcw srch : Int)
    (cut : Int → Int) (bits : Bits) : Bits :=
  let dstw : Int := b.width
  let dsth : Int := b.height
  let offset := (dstw - srcw).tdiv 2
  let pdst := if offset > 0 then offset * 4 else 0
  let psrc := if offset > 0 then 0 else 0 - offset
  let minw := if offset > 0 then (p.width : Int) else cut dstw
  let minh := if dsth > srch then (p.height : Int) else cut dsth
  sc.paint img psrc p.stride pdst (b.stride * 4) minw minh bits

/-- `renderFrame`, on the image at `img` and the buffer at `bits`. -/
def paintFrame (p : Option Image) (window : Bool) (lock : Option WindowBuffer) (img : Pixels)
    (bits : Bits) : Bits :=
  match p, window, lock with
  | some p, true, some b =>
    if b.supported then
      let w : Int := p.width
      let h : Int := p.height
      match scaleType p.width with
      | .scale3P4 =>
        paintScaled fourOfThree img p b ((w * 3).tdiv 4) ((h * 3).tdiv 4) (fun n => (n * 4).tdiv 3) bits
      | .scale1P3 => paintScaled threeOfOne img p b (w.tdiv 3) (h.tdiv 3) (fun n => n * 3) bits
      | .scale1P2 => paintScaled twoOfOne img p b (w.tdiv 2) (h.tdiv 2) (fun n => n * 2) bits
      | .scaleNone =>
        let painted := paintScaled gray img p b w h (fun n => n) bits
        if b.height > p.height then
          clear (p.height * b.stride * 4) ((b.height - p.height : Nat) * b.stride * 4) painted
        else painted
    else bits
  | _, _, _ => bits

/-! ## Where a pixel comes from -/

/-- The column and the row of the image that a column and a row of the picture show. -/
def ScaleType.column : ScaleType → Nat → Nat
  | .scaleNone, x => x
  | .scale3P4, x => x / 3 * 4 + x % 3
  | .scale1P2, x => x * 2
  | .scale1P3, x => x * 3

def ScaleType.line : ScaleType → Nat → Nat
  | .scaleNone, y => y
  | .scale3P4, y => y / 3 * 4 + y % 3 + 1
  | .scale1P2, y => y * 2
  | .scale1P3, y => y * 3

/-- `srcw` and `srch`. -/
def ScaleType.scaled : ScaleType → Nat → Nat
  | .scaleNone, n => n
  | .scale3P4, n => n * 3 / 4
  | .scale1P2, n => n / 2
  | .scale1P3, n => n / 3

/-- How many columns, or rows, the scaler makes of `n`. -/
def ScaleType.made : ScaleType → Nat → Nat
  | .scale1P2, n => (n + 1) / 2
  | s, n => s.scaled n

/-- How many rows of a buffer of `n` are painted when the picture is cut. -/
def ScaleType.cutLines : ScaleType → Nat → Nat
  | .scale3P4, n => n * 4 / 3 * 3 / 4
  | _, n => n

/-- The rows of the picture that are in the window. -/
def shownLines (p : Image) (b : WindowBuffer) : Nat :=
  let s := scaleType p.width
  if s.scaled p.height < b.height then s.made p.height else s.cutLines b.height

/-- The columns of the picture that are in the window. -/
def shownColumns (p : Image) (b : WindowBuffer) : Nat :=
  let s := scaleType p.width
  if s.scaled p.width + 2 ≤ b.width then s.made p.width else b.width

/-- The pixel of the image, as row and column, that is shown at column `x` and row `y`. -/
def source (p : Image) (b : WindowBuffer) (x y : Nat) : Option (Nat × Nat) :=
  let s := scaleType p.width
  let left := (b.width - s.scaled p.width) / 2
  if left ≤ x ∧ x < left + shownColumns p b ∧ y < shownLines p b then
    some (s.line y, (s.scaled p.width - b.width) / 2 + s.column (x - left))
  else none

/-- The pixel of the buffer at column `x` and row `y`. -/
def pixel (b : WindowBuffer) (bits : Bits) (x y : Nat) : UInt32 := bits (b.stride * 4 * y + 4 * x)

/-! ## What one group stores -/

theorem low8 (v : UInt32) : (v &&& 0xff).toNat = v.toNat % 256 := by
  rw [UInt32.toNat_and]
  exact Nat.and_two_pow_sub_one_eq_mod v.toNat 8

theorem lane_word (a b c d : UInt8) (i : Nat) (hi : i < 4) :
    lane (ofBe32 d c b a) i = ([a, b, c, d].getD i 0).toUInt32 := by
  have ha := a.toNat_lt
  have hb := b.toNat_lt
  have hc := c.toNat_lt
  have hd := d.toNat_lt
  apply UInt32.toNat_inj.mp
  rw [lane, low8, UInt32.toNat_shiftRight, ofBe32, UInt32.toNat_ofNat', Nat.shiftRight_eq_div_pow]
  obtain rfl | rfl | rfl | rfl : i = 0 ∨ i = 1 ∨ i = 2 ∨ i = 3 := by omega
  · simp; omega
  · simp; omega
  · simp; omega
  · simp; omega

theorem lane_byte (v : UInt8) : lane v.toUInt32 0 = v.toUInt32 := by
  have hv := v.toNat_lt
  apply UInt32.toNat_inj.mp
  rw [lane, low8, UInt32.toNat_shiftRight, Nat.shiftRight_eq_div_pow]
  simp

namespace Scaler

variable {sc : Scaler} {img : Pixels} {bits : Bits} {n y d : Nat}

/-- One byte for each pixel that is stored. -/
def Reads (sc : Scaler) : Prop := (sc.loads = 4 ∨ sc.loads = 1) ∧ 0 < sc.stores ∧ sc.stores ≤ sc.loads

theorem lane_load (hreads : sc.Reads) {src : Int} {i : Nat} (hi : i < sc.stores) :
    lane (sc.load img src) i = (img (src + i)).toUInt32 := by
  obtain ⟨hloads, -, hle⟩ := hreads
  rw [load]
  cases hloads with
  | inl hfour =>
    rw [if_pos hfour, lane_word _ _ _ _ i (by omega)]
    obtain rfl | rfl | rfl | rfl : i = 0 ∨ i = 1 ∨ i = 2 ∨ i = 3 := by omega
    · simp
    · rfl
    · rfl
    · rfl
  | inr hone =>
    obtain rfl : i = 0 := by omega
    rw [if_neg (by omega), lane_byte, Nat.cast_zero, add_zero]

theorem storeLanes_hit {v : UInt32} {dst : Int} {q : Nat} (hq : q < n) :
    storeLanes v dst n bits (dst + 4 * q) = grey (lane v q) := by
  induction n with
  | zero => omega
  | succ n ih =>
    rw [storeLanes, storeAt, Function.update_apply]
    by_cases hlast : q = n
    · rw [if_pos (by rw [hlast]), hlast]
    · rw [if_neg (by omega)]
      exact ih (by omega)

theorem storeLanes_miss {v : UInt32} {dst a : Int} (hmiss : ∀ q < n, a ≠ dst + 4 * (q : Nat)) :
    storeLanes v dst n bits a = bits a := by
  induction n with
  | zero => rfl
  | succ n ih =>
    rw [storeLanes, storeAt, Function.update_of_ne (hmiss n (Nat.lt_succ_self n))]
    exact ih fun q hq => hmiss q (Nat.lt_succ_of_lt hq)

/-! ## The inner loop -/

theorem paintRow_miss {src dst a : Int} (hmiss : ∀ q < n * sc.stores, a ≠ dst + 4 * (q : Nat)) :
    sc.paintRow img n src dst bits a = bits a := by
  induction n generalizing src dst bits with
  | zero => rfl
  | succ n ih =>
    rw [Nat.succ_mul] at hmiss
    have hrest : ∀ q < n * sc.stores, a ≠ dst + 4 * sc.stores + 4 * (q : Nat) := by
      intro q hq
      have hne := hmiss (sc.stores + q) (by omega)
      push_cast at hne
      omega
    rw [paintRow, ih hrest]
    exact storeLanes_miss fun q hq => hmiss q (by omega)

/-- Column `q` of the row is pixel `q % stores` of group `q / stores`. -/
theorem paintRow_hit (hreads : sc.Reads) {src dst : Int} {q : Nat} (hq : q < n * sc.stores) :
    sc.paintRow img n src dst bits (dst + 4 * q) =
      grey (img (src + (q / sc.stores * sc.src + q % sc.stores : Nat))).toUInt32 := by
  have hpos := hreads.2.1
  induction n generalizing src dst bits q with
  | zero => omega
  | succ n ih =>
    rw [Nat.succ_mul] at hq
    rw [paintRow]
    by_cases hhead : q < sc.stores
    · rw [paintRow_miss (by intros; omega), storeLanes_hit hhead, lane_load hreads hhead,
        Nat.div_eq_of_lt hhead, Nat.mod_eq_of_lt hhead, Nat.zero_mul, Nat.zero_add]
    · obtain ⟨q, rfl⟩ := Nat.exists_eq_add_of_le (Nat.le_of_not_lt hhead)
      have hcol : dst + 4 * ((sc.stores + q : Nat) : Int) = dst + 4 * sc.stores + 4 * q := by
        push_cast
        ring
      rw [hcol, ih (by omega), Nat.add_div_left q hpos, Nat.add_mod_left]
      congr 3
      push_cast
      ring

/-! ## The outer loop -/

theorem le_of_mem_rowPairs {yd : Nat × Nat} (h : yd ∈ sc.rowPairs n y d) : d ≤ yd.2 := by
  induction n generalizing y d with
  | zero => cases h
  | succ n ih =>
    rw [rowPairs] at h
    split at h
    · exact ih h
    · cases List.mem_cons.mp h with
      | inl heq => rw [heq]
      | inr hmem => exact Nat.le_of_succ_le (ih hmem)

theorem paintRows_step (stridein strideout w src dst : Int) :
    sc.paintRows img stridein strideout w (n + 1) y (src + stridein * y) (dst + strideout * d) bits =
      if sc.skips y then
        sc.paintRows img stridein strideout w n (y + sc.rows) (src + stridein * (y + sc.rows : Nat))
          (dst + strideout * d) bits
      else
        sc.paintRows img stridein strideout w n (y + sc.rows) (src + stridein * (y + sc.rows : Nat))
          (dst + strideout * (d + 1 : Nat))
          (sc.paintRow img (turns w sc.src) (src + stridein * y) (dst + strideout * d) bits) := by
  have hsrc : src + stridein * y + stridein * sc.rows = src + stridein * ((y + sc.rows : Nat) : Int) := by
    push_cast
    ring
  have hdst : dst + strideout * d + strideout = dst + strideout * ((d + 1 : Nat) : Int) := by
    push_cast
    ring
  rw [paintRows, hsrc, hdst]

theorem paintRows_miss {stridein strideout w src dst a : Int}
    (hmiss : ∀ yd ∈ sc.rowPairs n y d, ∀ q < turns w sc.src * sc.stores,
      a ≠ dst + strideout * yd.2 + 4 * (q : Nat)) :
    sc.paintRows img stridein strideout w n y (src + stridein * y) (dst + strideout * d) bits a =
      bits a := by
  induction n generalizing y d bits with
  | zero => rfl
  | succ n ih =>
    rw [rowPairs] at hmiss
    rw [paintRows_step]
    split
    · rename_i hskip
      rw [if_pos hskip] at hmiss
      exact ih hmiss
    · rename_i hskip
      rw [if_neg hskip] at hmiss
      rw [ih fun yd hyd => hmiss yd (List.mem_cons_of_mem _ hyd)]
      exact paintRow_miss (hmiss (y, d) List.mem_cons_self)

/-- A row is not touched again, since the ones after it start behind it. -/
theorem paintRows_hit (hreads : sc.Reads) {stridein strideout w src dst : Int} {yd : Nat × Nat} {q : Nat}
    (hstride : 4 * ((turns w sc.src * sc.stores : Nat) : Int) ≤ strideout)
    (hyd : yd ∈ sc.rowPairs n y d) (hq : q < turns w sc.src * sc.stores) :
    sc.paintRows img stridein strideout w n y (src + stridein * y) (dst + strideout * d) bits
        (dst + strideout * yd.2 + 4 * q) =
      grey (img (src + stridein * yd.1 + (q / sc.stores * sc.src + q % sc.stores : Nat))).toUInt32 := by
  induction n generalizing y d bits with
  | zero => cases hyd
  | succ n ih =>
    rw [rowPairs] at hyd
    rw [paintRows_step]
    split
    · rename_i hskip
      rw [if_pos hskip] at hyd
      exact ih hyd
    · rename_i hskip
      rw [if_neg hskip] at hyd
      cases List.mem_cons.mp hyd with
      | inr hmem => exact ih hmem
      | inl heq =>
        obtain rfl : yd = (y, d) := heq
        rw [paintRows_miss]
        · exact paintRow_hit hreads hq
        · intro later hlater r hr
          obtain ⟨k, hk⟩ := Nat.exists_eq_add_of_le (le_of_mem_rowPairs hlater)
          have hbehind : 0 ≤ strideout * k := mul_nonneg (by omega) (by omega)
          have hrow : strideout * (later.2 : Int) = strideout * d + strideout + strideout * k := by
            rw [hk]
            push_cast
            ring
          dsimp only
          omega

/-! ## The rows of each scaler -/

theorem rowPairs_line (hskips : ∀ y, sc.skips y = false) {yd : Nat × Nat} :
    yd ∈ sc.rowPairs n 0 0 ↔ yd.2 < n ∧ yd.1 = yd.2 * sc.rows := by
  rw [mem_rowPairs hskips]
  constructor
  · intro ⟨j, hj, heq⟩
    rw [heq]
    exact ⟨by omega, by rw [Nat.zero_add, Nat.zero_add]⟩
  · intro ⟨hlt, heq⟩
    exact ⟨yd.2, hlt, Prod.ext (by rw [heq, Nat.zero_add]) (Nat.zero_add _).symm⟩

theorem fourOfThree_mem_rowPairs {y' : Nat} (hd : d + (y + 3) / 4 = y) (hy : y ≤ y' ∧ y' < y + n)
    (hkept : y' % 4 ≠ 0) : (y', y' - (y' + 3) / 4) ∈ fourOfThree.rowPairs n y d := by
  induction n generalizing y d with
  | zero => omega
  | succ n ih =>
    rw [rowPairs]
    simp only [fourOfThree, beq_iff_eq] at ih ⊢
    split
    · exact ih (by omega) (by omega)
    · by_cases hhead : y' = y
      · have hpair : (y', y' - (y' + 3) / 4) = (y, d) := Prod.ext hhead (by dsimp only; omega)
        rw [hpair]
        exact List.mem_cons_self
      · exact List.mem_cons_of_mem _ (ih (by omega) (by omega))

/-- Three rows of four, the first of them left out. -/
theorem rowPairs_fourOfThree_line {yd : Nat × Nat} :
    yd ∈ fourOfThree.rowPairs n 0 0 ↔ yd.2 < n * 3 / 4 ∧ yd.1 = yd.2 / 3 * 4 + yd.2 % 3 + 1 := by
  constructor
  · intro h
    have hpair := mem_rowPairs_fourOfThree (by omega) h
    omega
  · intro ⟨hlt, heq⟩
    have hmem : (yd.1, yd.1 - (yd.1 + 3) / 4) ∈ fourOfThree.rowPairs n 0 0 :=
      fourOfThree_mem_rowPairs (by omega) (by omega) (by omega)
    have hpair : yd = (yd.1, yd.1 - (yd.1 + 3) / 4) := Prod.ext rfl (by dsimp only; omega)
    rw [hpair]
    exact hmem

/-! ## The window -/

variable {p : Image} {b : WindowBuffer} {so dd count : Nat} {line : Nat → Nat} {w h : Int}

/-- A pixel is at one row and one column only. -/
theorem cell_unique {s : Int} {x x' y y' : Nat} (hx : x < s) (hx' : x' < s)
    (heq : s * y + x = s * y' + (x' : Nat)) : y = y' ∧ x = x' := by
  have hrow : ∀ (x y : Nat), (x : Int) < s → (s * y + x) / s = y := by
    intro x y hlt
    rw [Int.add_comm, Int.add_mul_ediv_left _ _ (by omega), Int.ediv_eq_zero_of_lt (by omega) hlt,
      zero_add]
  have hy : (y : Int) = y' := by
    rw [← hrow x y hx, heq, hrow x' y' hx']
  rw [hy] at heq
  exact ⟨by omega, by omega⟩

/-- A scaler that makes `count` rows, as the pixels of the buffer see it. -/
theorem pixel_paint (hreads : sc.Reads) (hstride : (b.width : Int) ≤ b.stride)
    (hrows : ∀ yd, yd ∈ sc.rowPairs (turns (sc.round h) sc.rows) 0 0 ↔ yd.2 < count ∧ yd.1 = line yd.2)
    (hwide : count = 0 ∨ dd + turns (sc.round w) sc.src * sc.stores ≤ b.width) {x y : Nat}
    (hx : x < b.width) :
    pixel b (sc.paint img so p.stride (4 * (dd : Int)) (b.stride * 4) w h bits) x y =
      if dd ≤ x ∧ x < dd + turns (sc.round w) sc.src * sc.stores ∧ y < count then
        grey (img (p.stride * line y +
          (so + ((x - dd) / sc.stores * sc.src + (x - dd) % sc.stores) : Nat))).toUInt32
      else pixel b bits x y := by
  have hpaint : sc.paint img so p.stride (4 * (dd : Int)) (b.stride * 4) w h bits =
      sc.paintRows img p.stride (b.stride * 4) (sc.round w) (turns (sc.round h) sc.rows) 0
        (so + p.stride * (0 : Nat)) (4 * (dd : Int) + b.stride * 4 * (0 : Nat)) bits := by
    simp only [Nat.cast_zero, mul_zero, add_zero, paint]
  rw [hpaint, pixel]
  by_cases hshown : dd ≤ x ∧ x < dd + turns (sc.round w) sc.src * sc.stores ∧ y < count
  · obtain ⟨hleft, hright, hy⟩ := hshown
    have haddr : b.stride * 4 * y + 4 * (x : Int) =
        4 * (dd : Int) + b.stride * 4 * y + 4 * (x - dd : Nat) := by
      omega
    have hmem := (hrows (line y, y)).mpr ⟨hy, rfl⟩
    rw [if_pos ⟨hleft, hright, hy⟩, haddr]
    refine (paintRows_hit hreads (by omega) hmem (by omega)).trans ?_
    congr 3
    push_cast
    ring
  · rw [if_neg hshown]
    apply paintRows_miss
    intro yd hyd q hq heq
    have hcount := ((hrows yd).mp hyd).1
    have hcell : b.stride * y + x = b.stride * yd.2 + (dd + q : Nat) := by
      push_cast
      linarith
    have hsame := cell_unique (by omega) (by omega) hcell
    omega

end Scaler

/-! ## The four cases -/

variable {sc : Scaler} {img : Pixels} {bits : Bits} {p : Image} {b : WindowBuffer}

/-- Centred and cut at once: one of the two halves is none. -/
theorem paintScaled_eq {srcw srch : Nat} {cut : Int → Int} {cutNat : Nat → Nat}
    (hcut : ∀ n : Nat, cut n = cutNat n) :
    paintScaled sc img p b srcw srch cut bits =
      sc.paint img ((srcw - b.width) / 2 : Nat) p.stride (4 * ((b.width - srcw) / 2 : Nat)) (b.stride * 4)
        (if srcw + 2 ≤ b.width then p.width else cutNat b.width : Nat) (minh p b srch cutNat) bits := by
  rw [paintScaled, minh_eq hcut]
  rcases Nat.lt_or_ge b.width (srcw + 2) with hnarrow | hwide
  · have hoffset : ((b.width : Int) - srcw).tdiv 2 = -((srcw - b.width) / 2 : Nat) := by
      rcases Nat.lt_or_ge srcw b.width with hlt | hge
      · obtain rfl : srcw = b.width - 1 := by omega
        have hone : (b.width : Int) - ((b.width - 1 : Nat) : Int) = 1 := by omega
        have hzero : (b.width - 1 - b.width) / 2 = 0 := by omega
        rw [hone, hzero]
        rfl
      · have hneg : (b.width : Int) - srcw = -((srcw - b.width : Nat) : Int) := by omega
        rw [hneg, Int.neg_tdiv]
        rfl
    have hleft : (b.width - srcw) / 2 = 0 := by omega
    rw [hoffset, if_neg (by omega), if_neg (by omega), if_neg (by omega), if_neg (by omega), hcut, hleft,
      Int.zero_sub, Int.neg_neg]
    rfl
  · have hoffset : ((b.width : Int) - srcw).tdiv 2 = ((b.width - srcw) / 2 : Nat) := by
      rw [← Int.ofNat_sub (by omega)]
      rfl
    have hright : (srcw - b.width) / 2 = 0 := by omega
    rw [hoffset, if_pos (by omega), if_pos (by omega), if_pos (by omega), if_pos hwide, hright, mul_comm]
    rfl

/-- What the window shows, with what was there before where the picture is not. -/
def shown (p : Image) (b : WindowBuffer) (img : Pixels) (before : Nat → Nat → UInt32) (x y : Nat) :
    UInt32 :=
  match source p b x y with
  | some (row, col) => grey (img (p.stride * row + col)).toUInt32
  | none => before x y

theorem pixel_paintScaled {s : ScaleType} {cut : Int → Int} (cutNat count : Nat → Nat)
    (hscale : scaleType p.width = s) (hreads : sc.Reads) (hcut : ∀ n : Nat, cut n = cutNat n)
    (hstride : (b.width : Int) ≤ b.stride)
    (hcolumn : ∀ q, q / sc.stores * sc.src + q % sc.stores = s.column q)
    (hrows : ∀ (n : Nat) yd, yd ∈ sc.rowPairs (turns (sc.round n) sc.rows) 0 0 ↔
      yd.2 < count n ∧ yd.1 = s.line yd.2)
    (hmade : count p.height = s.made p.height) (hcutLines : count (cutNat b.height) = s.cutLines b.height)
    (hcentred : s.scaled p.width + 2 ≤ b.width → shownLines p b ≠ 0 →
      turns (sc.round p.width) sc.src * sc.stores = s.made p.width ∧
        (b.width - s.scaled p.width) / 2 + s.made p.width ≤ b.width)
    (hnarrow : b.width < s.scaled p.width + 2 → shownLines p b ≠ 0 →
      turns (sc.round (cutNat b.width)) sc.src * sc.stores = b.width) {x y : Nat} (hx : x < b.width) :
    pixel b (paintScaled sc img p b (s.scaled p.width) (s.scaled p.height) cut bits) x y =
      shown p b img (pixel b bits) x y := by
  have hlines : count (minh p b (s.scaled p.height) cutNat) = shownLines p b := by
    rw [minh, shownLines, hscale]
    by_cases htall : s.scaled p.height < b.height
    · rw [if_pos htall, if_pos htall, hmade]
    · rw [if_neg htall, if_neg htall, hcutLines]
  have hcolumns : shownLines p b ≠ 0 →
      turns (sc.round (if s.scaled p.width + 2 ≤ b.width then p.width else cutNat b.width : Nat)) sc.src *
        sc.stores = shownColumns p b ∧ (b.width - s.scaled p.width) / 2 + shownColumns p b ≤ b.width := by
    intro hsome
    rw [shownColumns, hscale]
    by_cases hwide : s.scaled p.width + 2 ≤ b.width
    · rw [if_pos hwide, if_pos hwide]
      exact hcentred hwide hsome
    · rw [if_neg hwide, if_neg hwide]
      exact ⟨hnarrow (by omega) hsome, by omega⟩
  rw [paintScaled_eq hcut, Scaler.pixel_paint hreads hstride (hrows _) (by omega) hx, hlines, shown,
    source, hscale]
  by_cases hsome : shownLines p b = 0
  · rw [if_neg (by omega), if_neg (by omega)]
  · rw [(hcolumns hsome).1]
    split
    · rw [hcolumn]
    · rfl

theorem pixel_gray (hscale : scaleType p.width = .scaleNone) (hfits : Fits p b)
    (hstride : (b.width : Int) ≤ b.stride) {x y : Nat} (hx : x < b.width) :
    pixel b (paintScaled gray img p b p.width p.height (fun n => n) bits) x y =
      shown p b img (pixel b bits) x y := by
  have hcolumn : ∀ q, q / 4 * 4 + q % 4 = q := by
    intro q
    omega
  have hrows : ∀ (n : Nat) yd, yd ∈ gray.rowPairs (turns n 1) 0 0 ↔ yd.2 < n ∧ yd.1 = yd.2 := by
    intro n yd
    rw [turns_one, Scaler.rowPairs_line fun _ => rfl, show gray.rows = 1 from rfl, Nat.mul_one]
  simp only [Fits, hscale] at hfits
  refine pixel_paintScaled (s := .scaleNone) id id hscale
    ⟨.inl rfl, by decide, by decide⟩ (fun _ => rfl) hstride hcolumn hrows rfl rfl ?_ ?_ hx
  · intro hwide hsome
    simp only [shownLines, hscale, gray, id_eq, turns_four, ScaleType.scaled, ScaleType.made,
      ScaleType.cutLines] at hwide hsome ⊢
    split at hsome
    · omega
    · omega
  · intro hnarrow hsome
    simp only [shownLines, hscale, gray, id_eq, turns_four, ScaleType.scaled, ScaleType.made,
      ScaleType.cutLines] at hnarrow hsome ⊢
    split at hsome
    · omega
    · omega

theorem pixel_fourOfThree (hscale : scaleType p.width = .scale3P4) (hfits : Fits p b)
    (hstride : (b.width : Int) ≤ b.stride) {x y : Nat} (hx : x < b.width) :
    pixel b (paintScaled fourOfThree img p b (((p.width : Int) * 3).tdiv 4)
        (((p.height : Int) * 3).tdiv 4) (fun n => (n * 4).tdiv 3) bits) x y =
      shown p b img (pixel b bits) x y := by
  have hrows : ∀ (n : Nat) yd, yd ∈ fourOfThree.rowPairs (turns n 1) 0 0 ↔
      yd.2 < n * 3 / 4 ∧ yd.1 = yd.2 / 3 * 4 + yd.2 % 3 + 1 := by
    intro n yd
    rw [turns_one, Scaler.rowPairs_fourOfThree_line]
  simp only [Fits, hscale] at hfits
  refine pixel_paintScaled (s := .scale3P4) (fun n => n * 4 / 3) (fun n => n * 3 / 4) hscale
    ⟨.inl rfl, by decide, by decide⟩ (fun _ => rfl) hstride (fun _ => rfl) hrows rfl rfl ?_ ?_ hx
  · intro hwide hsome
    simp only [shownLines, hscale, fourOfThree, id_eq, turns_four, ScaleType.scaled, ScaleType.made,
      ScaleType.cutLines] at hwide hsome ⊢
    split at hsome
    · omega
    · omega
  · intro hnarrow hsome
    simp only [shownLines, hscale, fourOfThree, id_eq, turns_four, ScaleType.scaled, ScaleType.made,
      ScaleType.cutLines] at hnarrow hsome ⊢
    split at hsome
    · omega
    · omega

theorem pixel_threeOfOne (hscale : scaleType p.width = .scale1P3) (hstride : (b.width : Int) ≤ b.stride)
    {x y : Nat} (hx : x < b.width) :
    pixel b (paintScaled threeOfOne img p b ((p.width : Int).tdiv 3) ((p.height : Int).tdiv 3)
        (fun n => n * 3) bits) x y =
      shown p b img (pixel b bits) x y := by
  have hturns : ∀ n : Nat, turns (threeOfOne.round n) 3 = n / 3 := by
    intro n
    rw [show threeOfOne.round n = ((n / 3 * 3 : Nat) : Int) from rfl, turns_natCast _ (by decide)]
    omega
  have hcolumn : ∀ q, q / 1 * 3 + q % 1 = q * 3 := by
    intro q
    omega
  have hrows : ∀ (n : Nat) yd, yd ∈ threeOfOne.rowPairs (turns (threeOfOne.round n) 3) 0 0 ↔
      yd.2 < n / 3 ∧ yd.1 = yd.2 * 3 := by
    intro n yd
    rw [hturns, Scaler.rowPairs_line fun _ => rfl]
    rfl
  have htimes : ∀ n, n * 3 / 3 = n := by
    intro n
    omega
  refine pixel_paintScaled (s := .scale1P3) (fun n => n * 3) (fun n => n / 3) hscale
    ⟨.inr rfl, by decide, by decide⟩ (fun _ => rfl) hstride hcolumn hrows rfl (htimes _) ?_ ?_ hx
  · intro hwide hsome
    simp only [ScaleType.scaled, ScaleType.made, show threeOfOne.src = 3 from rfl, hturns,
      show threeOfOne.stores = 1 from rfl] at hwide ⊢
    omega
  · intro hnarrow hsome
    simp only [show threeOfOne.src = 3 from rfl, hturns, show threeOfOne.stores = 1 from rfl]
    omega

theorem pixel_twoOfOne (hscale : scaleType p.width = .scale1P2) (hstride : (b.width : Int) ≤ b.stride)
    {x y : Nat} (hx : x < b.width) :
    pixel b (paintScaled twoOfOne img p b ((p.width : Int).tdiv 2) ((p.height : Int).tdiv 2)
        (fun n => n * 2) bits) x y =
      shown p b img (pixel b bits) x y := by
  have hturns : ∀ n : Nat, turns (twoOfOne.round n) 2 = (n + 1) / 2 := by
    intro n
    exact turns_natCast n (by decide)
  have hcolumn : ∀ q, q / 1 * 2 + q % 1 = q * 2 := by
    intro q
    omega
  have hrows : ∀ (n : Nat) yd, yd ∈ twoOfOne.rowPairs (turns (twoOfOne.round n) 2) 0 0 ↔
      yd.2 < (n + 1) / 2 ∧ yd.1 = yd.2 * 2 := by
    intro n yd
    rw [hturns, Scaler.rowPairs_line fun _ => rfl]
    rfl
  have htimes : ∀ n, (n * 2 + 1) / 2 = n := by
    intro n
    omega
  refine pixel_paintScaled (s := .scale1P2) (fun n => n * 2) (fun n => (n + 1) / 2) hscale
    ⟨.inr rfl, by decide, by decide⟩ (fun _ => rfl) hstride hcolumn hrows rfl (htimes _) ?_ ?_ hx
  · intro hwide hsome
    simp only [ScaleType.scaled, ScaleType.made, show twoOfOne.src = 2 from rfl, hturns,
      show twoOfOne.stores = 1 from rfl] at hwide ⊢
    omega
  · intro hnarrow hsome
    simp only [show twoOfOne.src = 2 from rfl, hturns, show twoOfOne.stores = 1 from rfl]
    omega

/-! ## The whole frame -/

theorem pixel_clear {r n x y : Nat} (hx : (x : Int) < b.stride) (hy : y < r + n) :
    pixel b (clear (r * b.stride * 4) (n * b.stride * 4) bits) x y =
      if r ≤ y then 0 else pixel b bits x y := by
  have hrows : ∀ {i j : Nat}, i ≤ j → i * b.stride ≤ j * b.stride := by
    intro i j hle
    exact mul_le_mul_of_nonneg_right (by omega) (by omega)
  have hend : ((y + 1 : Nat) : Int) * b.stride ≤ ((r + n : Nat) : Int) * b.stride := hrows hy
  push_cast [add_mul] at hend
  have hcell : b.stride * 4 * y + 4 * (x : Int) = 4 * (y * b.stride + x) := by
    ring
  simp only [pixel, clear, hcell]
  refine if_congr ?_ rfl rfl
  constructor
  · intro ⟨hstart, _⟩
    by_contra habove
    have hbefore : ((y + 1 : Nat) : Int) * b.stride ≤ r * b.stride := hrows (by omega)
    push_cast [add_mul] at hbefore
    omega
  · intro hbelow
    have hstart := hrows hbelow
    constructor
    · omega
    · omega

/-- No pixel outside of the image is shown. -/
theorem source_inside (hfits : Fits p b) {x y row col : Nat} (hx : x < b.width)
    (hsource : source p b x y = some (row, col)) : row < p.height ∧ col < p.width := by
  rw [source] at hsource
  split at hsource
  · rename_i hshown
    obtain ⟨rfl, rfl⟩ := Prod.mk.inj (Option.some.inj hsource)
    clear hsource
    rw [Fits] at hfits
    simp only [shownLines, shownColumns] at hshown
    cases hscale : scaleType p.width with
    | scaleNone =>
      simp only [hscale, ScaleType.scaled, ScaleType.made, ScaleType.cutLines, ScaleType.line,
        ScaleType.column] at hfits hshown ⊢
      split_ifs at hshown <;> omega
    | scale3P4 =>
      simp only [hscale, ScaleType.scaled, ScaleType.made, ScaleType.cutLines, ScaleType.line,
        ScaleType.column] at hfits hshown ⊢
      split_ifs at hshown <;> omega
    | scale1P2 =>
      simp only [hscale, ScaleType.scaled, ScaleType.made, ScaleType.cutLines, ScaleType.line,
        ScaleType.column] at hfits hshown ⊢
      split_ifs at hshown <;> omega
    | scale1P3 =>
      simp only [hscale, ScaleType.scaled, ScaleType.made, ScaleType.cutLines, ScaleType.line,
        ScaleType.column] at hfits hshown ⊢
      split_ifs at hshown <;> omega
  · cases hsource

/-- What is around the picture: rows below an image that is not scaled are cleared. -/
def background (p : Image) (b : WindowBuffer) (bits : Bits) (x y : Nat) : UInt32 :=
  if scaleType p.width = .scaleNone ∧ p.height ≤ y then 0 else pixel b bits x y

theorem background_scaled (hscale : scaleType p.width ≠ .scaleNone) :
    background p b bits = pixel b bits := by
  funext x y
  rw [background, if_neg fun h => hscale h.1]

/-- `memset` clears what is below the image, and no more. -/
theorem pixel_cleared (hscale : scaleType p.width = .scaleNone) (hstride : (b.width : Int) ≤ b.stride)
    {painted : Bits} {x y : Nat} (hx : x < b.width) (hy : y < b.height)
    (hpainted : pixel b painted x y = shown p b img (pixel b bits) x y) :
    pixel b (if b.height > p.height then
        clear (p.height * b.stride * 4) ((b.height - p.height : Nat) * b.stride * 4) painted
      else painted) x y =
      shown p b img (background p b bits) x y := by
  by_cases hbelow : p.height ≤ y
  · have hnone : source p b x y = none := by
      simp only [source, shownLines, hscale, ScaleType.scaled, ScaleType.made, ScaleType.cutLines]
      exact if_neg (by split_ifs <;> omega)
    rw [if_pos (by omega), pixel_clear (by omega) (by omega), if_pos hbelow, shown, hnone, background,
      if_pos ⟨hscale, hbelow⟩]
  · have habove : shown p b img (background p b bits) x y = shown p b img (pixel b bits) x y := by
      rw [shown, shown, background, if_neg fun h => hbelow h.2]
    rw [habove, ← hpainted]
    split
    · rw [pixel_clear (by omega) (by omega), if_neg hbelow]
    · rfl

/-! ## What is not stored to -/

theorem Scaler.paintRow_untouched {n y d : Nat} {src dst a : Int}
    (hstores : ∀ d', .store d' a ∉ sc.row y d n src dst) : sc.paintRow img n src dst bits a = bits a := by
  apply paintRow_miss
  intro q hq heq
  have hpos : 0 < sc.stores := Nat.pos_of_ne_zero fun h => by simp [h] at hq
  refine hstores d (mem_row.mpr ⟨q / sc.stores, Nat.div_lt_of_lt_mul (Nat.mul_comm _ _ ▸ hq), .inr
    ⟨q % sc.stores, Nat.mod_lt _ hpos, ?_⟩⟩)
  rw [Nat.div_add_mod', heq]

theorem Scaler.paintRows_untouched {n y d : Nat} {stridein strideout w src dst a : Int}
    (hstores : ∀ d', .store d' a ∉ sc.scale stridein strideout w n y d src dst) :
    sc.paintRows img stridein strideout w n y src dst bits a = bits a := by
  induction n generalizing y d src dst bits with
  | zero => rfl
  | succ n ih =>
    rw [scale] at hstores
    rw [paintRows]
    split
    · rename_i hskip
      rw [if_pos hskip] at hstores
      exact ih hstores
    · rename_i hskip
      rw [if_neg hskip] at hstores
      rw [ih fun d' hmem => hstores d' (List.mem_append_right _ hmem)]
      exact paintRow_untouched fun d' hmem => hstores d' (List.mem_append_left _ hmem)

theorem paintScaled_untouched {srcw srch a : Int} {cut : Int → Int}
    (hstores : ∀ d, .store d a ∉ renderScaled sc.run p b srcw srch cut) :
    paintScaled sc img p b srcw srch cut bits a = bits a :=
  Scaler.paintRows_untouched hstores

/-- A word changes only where `renderFrame` stores to it, or clears it. -/
theorem paintFrame_untouched {a : Int} (hstores : ∀ d, .store d a ∉ renderFrame (some p) true (some b))
    (hkept : scaleType p.width = .scaleNone → a < p.height * b.stride * 4 ∨ b.height * b.stride * 4 ≤ a) :
    paintFrame (some p) true (some b) img bits a = bits a := by
  rw [renderFrame] at hstores
  rw [paintFrame]
  split
  · rename_i hformat
    rw [if_pos hformat] at hstores
    cases hscale : scaleType p.width with
    | scale3P4 =>
      rw [hscale] at hstores
      exact paintScaled_untouched hstores
    | scale1P2 =>
      rw [hscale] at hstores
      exact paintScaled_untouched hstores
    | scale1P3 =>
      rw [hscale] at hstores
      exact paintScaled_untouched hstores
    | scaleNone =>
      rw [hscale] at hstores
      have hpainted : paintScaled gray img p b p.width p.height (fun n => n) bits a = bits a :=
        paintScaled_untouched hstores
      dsimp only
      split
      · rename_i htall
        have hrows : ((b.height - p.height : Nat) : Int) * b.stride * 4 =
            b.height * b.stride * 4 - p.height * b.stride * 4 := by
          rw [Int.ofNat_sub (by omega)]
          ring
        rw [clear, if_neg, hpainted]
        have hkept := hkept hscale
        omega
      · exact hpainted
  · rfl

/-- The accesses of a frame that fits, from the four cases. -/
theorem frame_inside (hformat : b.supported = true) (hfits : Fits p b) :
    Inside p b (renderFrame (some p) true (some b)) := by
  rw [renderFrame, if_pos hformat]
  rw [Fits] at hfits
  cases hscale : scaleType p.width with
  | scaleNone =>
    rw [hscale] at hfits
    exact gray_inside.mpr hfits
  | scale3P4 =>
    rw [hscale] at hfits
    exact fourOfThree_inside.mpr hfits
  | scale1P2 =>
    rw [hscale] at hfits
    exact twoOfOne_inside.mpr hfits
  | scale1P3 =>
    rw [hscale] at hfits
    exact threeOfOne_inside.mpr hfits

/-! ## The main result -/

/-- Where the sizes fit, each pixel of the window shows the pixel of the image that
`source` names, and is left alone, or cleared, where there is none. No other word
changes above the rows that are cleared. -/
theorem frame_shown (p : Image) (b : WindowBuffer) (img : Pixels) (bits : Bits)
    (hformat : b.supported = true) (hfits : Fits p b) (hstride : (b.width : Int) ≤ b.stride) :
    (∀ x y, x < b.width → y < b.height →
      pixel b (paintFrame (some p) true (some b) img bits) x y = shown p b img (background p b bits) x y ∧
        ∀ row col, source p b x y = some (row, col) → row < p.height ∧ col < p.width) ∧
    ∀ a, (∀ x y : Nat, x < b.width → y < b.height → a ≠ b.stride * 4 * y + 4 * x) →
      (scaleType p.width = .scaleNone → a < p.height * b.stride * 4 ∨ b.height * b.stride * 4 ≤ a) →
      paintFrame (some p) true (some b) img bits a = bits a := by
  constructor
  · intro x y hx hy
    refine ⟨?_, fun row col => source_inside hfits hx⟩
    rw [paintFrame, if_pos hformat]
    cases hscale : scaleType p.width with
    | scale3P4 =>
      rw [background_scaled (by rw [hscale]; decide)]
      exact pixel_fourOfThree hscale hfits hstride hx
    | scale1P2 =>
      rw [background_scaled (by rw [hscale]; decide)]
      exact pixel_twoOfOne hscale hstride hx
    | scale1P3 =>
      rw [background_scaled (by rw [hscale]; decide)]
      exact pixel_threeOfOne hscale hstride hx
    | scaleNone => exact pixel_cleared hscale hstride hx hy (pixel_gray hscale hfits hstride hx)
  · intro a hother hkept
    refine paintFrame_untouched (fun d hmem => ?_) hkept
    obtain ⟨hd, x, hx, heq⟩ := frame_inside hformat hfits _ hmem
    exact hother x d hx hd heq

/-- An image of 800 columns, cut to a buffer of six: the fifth pixel of the second row
is from column 302 of the third. -/
theorem frame_shown_cut :
    pixel ⟨6, 3, 8, 1⟩
      (paintFrame (some ⟨800, 4, 800⟩) true (some ⟨6, 3, 8, 1⟩) UInt8.ofInt fun _ => 0) 4 1 = 0x6e6e6e := by
  have hfits : Fits ⟨800, 4, 800⟩ ⟨6, 3, 8, 1⟩ := .inr (.inr (.inr (by decide)))
  have hsource : source ⟨800, 4, 800⟩ ⟨6, 3, 8, 1⟩ 4 1 = some (2, 302) := by decide
  have hshown := (frame_shown ⟨800, 4, 800⟩ ⟨6, 3, 8, 1⟩ UInt8.ofInt (fun _ => 0) (by decide) hfits
    (by decide)).1 4 1 (by decide) (by decide)
  rw [hshown.1, shown, hsource]
  decide

end CppSnippets.Render
