import Mathlib.Data.List.Basic
import Mathlib.Tactic.Linarith
import Mathlib.Tactic.Ring
import CppSnippets.Render.VideoRender

/-!
# What the scalers touch

The rows a scaler goes through and the columns it touches in each are independent, so
all of its accesses are in bounds when the last group of a row is, for all of the rows,
or when there is none. That is one lemma about the loops; what remains for each of the
four cases of `renderFrame` is arithmetic.
-/
namespace CppSnippets.Render

/-- A read is of a pixel of the row that it is meant for, and so is a store. -/
def Access.InBounds (p : Image) (b : WindowBuffer) : Access → Prop
  | .read y addr => y < p.height ∧ ∃ x, x < p.width ∧ addr = p.stride * y + (x : Nat)
  | .store d addr => d < b.height ∧ ∃ x, x < b.width ∧ addr = b.stride * 4 * d + 4 * (x : Nat)

/-- Every access of the scaler is in bounds. -/
def Inside (p : Image) (b : WindowBuffer) (accesses : List Access) : Prop :=
  ∀ a ∈ accesses, a.InBounds p b

namespace Scaler

variable {sc : Scaler} {p : Image} {b : WindowBuffer} {n y d : Nat}

/-! ## The loops -/

theorem mem_row {src dst : Int} {a : Access} : a ∈ sc.row y d n src dst ↔ ∃ k, k < n ∧
    ((∃ i, i < sc.loads ∧ a = .read y (src + (k * sc.src + i : Nat))) ∨
      ∃ i, i < sc.stores ∧ a = .store d (dst + 4 * (k * sc.stores + i : Nat))) := by
  induction n generalizing src dst with
  | zero => simp [row]
  | succ n ih =>
    have hsrc : ∀ k i : Nat, src + sc.src + (k * sc.src + i : Nat) = src + ((k + 1) * sc.src + i : Nat) := by
      intro k i
      push_cast
      ring
    have hdst : ∀ k i : Nat, dst + 4 * sc.stores + 4 * (k * sc.stores + i : Nat) =
        dst + 4 * ((k + 1) * sc.stores + i : Nat) := by
      intro k i
      push_cast
      ring
    rw [row, List.mem_append, List.mem_append, ih, Nat.exists_lt_succ_left]
    simp only [List.mem_map, List.mem_range, hsrc, hdst, Nat.zero_mul, Nat.zero_add, eq_comm (a := a)]

/-- The rows of the image that are used, each with the row of the buffer it goes to. -/
def rowPairs (sc : Scaler) : Nat → Nat → Nat → List (Nat × Nat)
  | 0, _, _ => []
  | n + 1, y, d =>
    if sc.skips y then sc.rowPairs n (y + sc.rows) d
    else (y, d) :: sc.rowPairs n (y + sc.rows) (d + 1)

theorem mem_scale {stridein strideout w src dst : Int} {a : Access} :
    a ∈ sc.scale stridein strideout w n y d (src + stridein * y) (dst + strideout * d) ↔
      ∃ yd ∈ sc.rowPairs n y d, a ∈ sc.row yd.1 yd.2 (turns w sc.src)
        (src + stridein * yd.1) (dst + strideout * yd.2) := by
  induction n generalizing y d with
  | zero => simp [scale, rowPairs]
  | succ n ih =>
    have hsrc : src + stridein * y + stridein * sc.rows = src + stridein * ((y + sc.rows : Nat) : Int) := by
      push_cast
      ring
    have hdst : dst + strideout * d + strideout = dst + strideout * ((d + 1 : Nat) : Int) := by
      push_cast
      ring
    rw [scale, rowPairs, hsrc, hdst]
    split
    · exact ih
    · rw [List.mem_append, ih, List.exists_mem_cons_iff]

/-! ## All accesses -/

theorem inBounds_read {so c : Nat} :
    (Access.read y (so + p.stride * y + (c : Nat))).InBounds p b ↔ y < p.height ∧ so + c < p.width := by
  refine and_congr_right fun _ => ⟨fun h => ?_, fun h => ⟨so + c, h, ?_⟩⟩
  · obtain ⟨x, hx, heq⟩ := h
    have hcol : ((so + c : Nat) : Int) = x := by
      push_cast
      linarith
    omega
  · push_cast
    ring

theorem inBounds_store {dd c : Nat} :
    (Access.store d (4 * (dd : Int) + b.stride * 4 * d + 4 * (c : Nat))).InBounds p b ↔
      d < b.height ∧ dd + c < b.width := by
  refine and_congr_right fun _ => ⟨fun h => ?_, fun h => ⟨dd + c, h, ?_⟩⟩
  · obtain ⟨x, hx, heq⟩ := h
    have hcol : ((dd + c : Nat) : Int) = x := by
      push_cast
      linarith
    omega
  · push_cast
    ring

/-- Row by row and group by group. -/
theorem inside_run_iff {so dd : Nat} {w h : Int} :
    Inside p b (sc.run so p.stride (4 * (dd : Int)) (b.stride * 4) w h) ↔
      ∀ yd ∈ sc.rowPairs (turns (sc.round h) sc.rows) 0 0, ∀ k < turns (sc.round w) sc.src,
        (∀ i < sc.loads, yd.1 < p.height ∧ so + (k * sc.src + i) < p.width) ∧
        ∀ i < sc.stores, yd.2 < b.height ∧ dd + (k * sc.stores + i) < b.width := by
  have hmem : ∀ a, a ∈ sc.run so p.stride (4 * (dd : Int)) (b.stride * 4) w h ↔
      ∃ yd ∈ sc.rowPairs (turns (sc.round h) sc.rows) 0 0, a ∈ sc.row yd.1 yd.2 (turns (sc.round w) sc.src)
        (so + p.stride * yd.1) (4 * (dd : Int) + b.stride * 4 * yd.2) := by
    intro a
    have hscale : a ∈ sc.scale p.stride (b.stride * 4) (sc.round w) (turns (sc.round h) sc.rows) 0 0
        (so + p.stride * (0 : Nat)) (4 * (dd : Int) + b.stride * 4 * (0 : Nat)) ↔ _ := mem_scale
    simp only [Nat.cast_zero, mul_zero, add_zero] at hscale
    exact hscale
  constructor
  · intro hinside yd hyd k hk
    refine ⟨fun i hi => ?_, fun i hi => ?_⟩
    · exact inBounds_read.mp (hinside _ ((hmem _).mpr ⟨yd, hyd, mem_row.mpr ⟨k, hk, .inl ⟨i, hi, rfl⟩⟩⟩))
    · exact inBounds_store.mp (hinside _ ((hmem _).mpr ⟨yd, hyd, mem_row.mpr ⟨k, hk, .inr ⟨i, hi, rfl⟩⟩⟩))
  · intro hall a ha
    obtain ⟨yd, hyd, ha⟩ := (hmem a).mp ha
    obtain ⟨k, hk, hcase⟩ := mem_row.mp ha
    cases hcase with
    | inl hread =>
      obtain ⟨i, hi, rfl⟩ := hread
      exact inBounds_read.mpr ((hall yd hyd k hk).1 i hi)
    | inr hstore =>
      obtain ⟨i, hi, rfl⟩ := hstore
      exact inBounds_store.mpr ((hall yd hyd k hk).2 i hi)

/-- The last group of a row decides for the columns. -/
theorem inside_run {so dd : Nat} {w h : Int} (hloads : 0 < sc.loads) (hstores : 0 < sc.stores)
    (hrows : ∀ yd ∈ sc.rowPairs (turns (sc.round h) sc.rows) 0 0, yd.1 < p.height ∧ yd.2 < b.height) :
    Inside p b (sc.run so p.stride (4 * (dd : Int)) (b.stride * 4) w h) ↔
      sc.rowPairs (turns (sc.round h) sc.rows) 0 0 = [] ∨ turns (sc.round w) sc.src = 0 ∨
        so + (turns (sc.round w) sc.src - 1) * sc.src + sc.loads ≤ p.width ∧
          dd + turns (sc.round w) sc.src * sc.stores ≤ b.width := by
  rw [inside_run_iff]
  generalize sc.rowPairs (turns (sc.round h) sc.rows) 0 0 = pairs at hrows ⊢
  generalize turns (sc.round w) sc.src = n
  constructor
  · intro hall
    cases pairs with
    | nil => exact .inl rfl
    | cons yd pairs =>
      cases n with
      | zero => exact .inr (.inl rfl)
      | succ n =>
        obtain ⟨hread, hstore⟩ := hall yd List.mem_cons_self n (Nat.lt_succ_self n)
        have hread := (hread (sc.loads - 1) (by omega)).2
        have hstore := (hstore (sc.stores - 1) (by omega)).2
        refine .inr (.inr ⟨?_, ?_⟩)
        · rw [Nat.add_sub_cancel]
          omega
        · rw [Nat.succ_mul]
          omega
  · intro hcase yd hyd k hk
    have hlast := (hcase.resolve_left (List.ne_nil_of_mem hyd)).resolve_left (by omega)
    have hsrc : k * sc.src ≤ (n - 1) * sc.src := Nat.mul_le_mul_right _ (by omega)
    have hdst : (k + 1) * sc.stores ≤ n * sc.stores := Nat.mul_le_mul_right _ (by omega)
    rw [Nat.succ_mul] at hdst
    exact ⟨fun i hi => ⟨(hrows yd hyd).1, by omega⟩, fun i hi => ⟨(hrows yd hyd).2, by omega⟩⟩

/-! ## The rows of each scaler -/

/-- Without rows that are skipped both counters go up together. -/
theorem mem_rowPairs {yd : Nat × Nat} (hskips : ∀ y, sc.skips y = false) :
    yd ∈ sc.rowPairs n y d ↔ ∃ j, j < n ∧ yd = (y + j * sc.rows, d + j) := by
  induction n generalizing y d with
  | zero => simp [rowPairs]
  | succ n ih =>
    have hy : ∀ j, y + sc.rows + j * sc.rows = y + (j + 1) * sc.rows := by
      intro j
      ring
    have hd : ∀ j, d + 1 + j = d + (j + 1) := by
      intro j
      ring
    rw [rowPairs, hskips, if_neg Bool.false_ne_true, List.mem_cons, ih, Nat.exists_lt_succ_left]
    simp only [hy, hd, Nat.zero_mul, Nat.add_zero]

theorem rowPairs_eq_nil (hskips : ∀ y, sc.skips y = false) : sc.rowPairs n y d = [] ↔ n = 0 := by
  cases n with
  | zero => exact iff_of_true rfl rfl
  | succ n =>
    rw [rowPairs, hskips, if_neg Bool.false_ne_true]
    exact iff_of_false (List.cons_ne_nil _ _) (Nat.succ_ne_zero n)

/-- Every fourth row is skipped, from the first one on. -/
theorem mem_rowPairs_fourOfThree {yd : Nat × Nat} (hd : d + (y + 3) / 4 = y)
    (h : yd ∈ fourOfThree.rowPairs n y d) : yd.1 < y + n ∧ yd.1 % 4 ≠ 0 ∧ yd.2 + (yd.1 + 3) / 4 = yd.1 := by
  induction n generalizing y d with
  | zero => cases h
  | succ n ih =>
    rw [rowPairs] at h
    simp only [fourOfThree, beq_iff_eq] at h ih
    split at h
    · have hrec := ih (y := y + 1) (d := d) (by omega) h
      exact ⟨by omega, hrec.2⟩
    · cases List.mem_cons.mp h with
      | inl heq =>
        rw [heq]
        exact ⟨by dsimp only; omega, by dsimp only; omega, by dsimp only; omega⟩
      | inr hmem =>
        have hrec := ih (y := y + 1) (d := d + 1) (by omega) hmem
        exact ⟨by omega, hrec.2⟩

theorem rowPairs_fourOfThree_eq_nil : fourOfThree.rowPairs n 0 0 = [] ↔ n < 2 := by
  match n with
  | 0 => exact iff_of_true rfl (by omega)
  | 1 => exact iff_of_true rfl (by omega)
  | n + 2 => exact iff_of_false (List.cons_ne_nil _ _) (by omega)

end Scaler

theorem turns_natCast (n : Nat) {d : Nat} (hd : 0 < d) : turns n d = (n + (d - 1)) / d := by
  rw [turns]
  have hcast : (n : Int) + ((d : Int) - 1) = ((n + (d - 1) : Nat) : Int) := by omega
  rw [hcast, ← Int.natCast_ediv, Int.toNat_natCast]

theorem turns_one (n : Nat) : turns n 1 = n := by
  rw [turns_natCast n Nat.one_pos, Nat.sub_self, Nat.div_one, Nat.add_zero]

theorem turns_four (n : Nat) : turns n 4 = (n + 3) / 4 := turns_natCast n (by decide)

theorem fourths_eq_zero (n : Nat) : (n + 3) / 4 = 0 ↔ n = 0 := by omega

/-! ## What `renderFrame` gives the scalers -/

section

variable {sc : Scaler} {p : Image} {b : WindowBuffer} {srcw srch : Nat} {cut : Int → Int} {cutNat : Nat → Nat}

/-- The rows that the scaler goes through. -/
def minh (p : Image) (b : WindowBuffer) (srch : Nat) (cutNat : Nat → Nat) : Nat :=
  if srch < b.height then p.height else cutNat b.height

theorem minh_eq (hcut : ∀ n : Nat, cut n = cutNat n) :
    (if (b.height : Int) > srch then (p.height : Int) else cut b.height) = minh p b srch cutNat := by
  rw [minh]
  by_cases h : srch < b.height
  · rw [if_pos h, if_pos (by omega)]
  · rw [if_neg h, if_neg (by omega), hcut]

/-- A picture that is smaller than the buffer by two columns at least is centred. -/
theorem renderScaled_centred (hwide : srcw + 2 ≤ b.width) (hcut : ∀ n : Nat, cut n = cutNat n) :
    renderScaled sc.run p b srcw srch cut =
      sc.run (0 : Nat) p.stride (4 * ((b.width - srcw) / 2 : Nat)) (b.stride * 4) p.width
        (minh p b srch cutNat) := by
  have hoffset : ((b.width : Int) - srcw).tdiv 2 = ((b.width - srcw) / 2 : Nat) := by
    rw [← Int.ofNat_sub (by omega)]
    rfl
  rw [renderScaled, hoffset, minh_eq hcut, if_pos (by omega), if_pos (by omega), if_pos (by omega), mul_comm]
  rfl

/-- A larger one is cut, on the left by a half of what is too much. -/
theorem renderScaled_cut (hnarrow : b.width < srcw + 2) (hcut : ∀ n : Nat, cut n = cutNat n) :
    renderScaled sc.run p b srcw srch cut =
      sc.run ((srcw - b.width) / 2 : Nat) p.stride (4 * (0 : Nat)) (b.stride * 4) (cutNat b.width)
        (minh p b srch cutNat) := by
  have hoffset : ((b.width : Int) - srcw).tdiv 2 = -((srcw - b.width) / 2 : Nat) := by
    rcases Nat.lt_or_ge srcw b.width with hlt | hge
    · obtain rfl : srcw = b.width - 1 := by omega
      have hone : (b.width : Int) - ((b.width - 1 : Nat) : Int) = 1 := by omega
      have hzero : (b.width - 1 - b.width) / 2 = 0 := by omega
      rw [hone, hzero]
      rfl
    · have hneg : (b.width : Int) - srcw = -((srcw - b.width : Nat) : Int) := by omega
      rw [hneg, Int.neg_tdiv]
      rfl
  rw [renderScaled, hoffset, minh_eq hcut, if_neg (by omega), if_neg (by omega), if_neg (by omega), hcut,
    Int.zero_sub, Int.neg_neg]
  rfl

/-- Both cases of a picture, where the rows are in bounds. -/
theorem inside_renderScaled (cutNat : Nat → Nat) (hloads : 0 < sc.loads) (hstores : 0 < sc.stores)
    (hcut : ∀ n : Nat, cut n = cutNat n)
    (hrows : ∀ yd ∈ sc.rowPairs (turns (sc.round (minh p b srch cutNat)) sc.rows) 0 0,
      yd.1 < p.height ∧ yd.2 < b.height) :
    Inside p b (renderScaled sc.run p b srcw srch cut) ↔
      sc.rowPairs (turns (sc.round (minh p b srch cutNat)) sc.rows) 0 0 = [] ∨
      srcw + 2 ≤ b.width ∧ (turns (sc.round p.width) sc.src = 0 ∨
        (turns (sc.round p.width) sc.src - 1) * sc.src + sc.loads ≤ p.width ∧
          (b.width - srcw) / 2 + turns (sc.round p.width) sc.src * sc.stores ≤ b.width) ∨
      b.width < srcw + 2 ∧ (turns (sc.round (cutNat b.width)) sc.src = 0 ∨
        (srcw - b.width) / 2 + (turns (sc.round (cutNat b.width)) sc.src - 1) * sc.src + sc.loads ≤ p.width ∧
          turns (sc.round (cutNat b.width)) sc.src * sc.stores ≤ b.width) := by
  rcases Nat.lt_or_ge b.width (srcw + 2) with hnarrow | hwide
  · rw [renderScaled_cut hnarrow hcut, Scaler.inside_run hloads hstores hrows, Nat.zero_add]
    simp only [hnarrow, Nat.not_le_of_lt hnarrow, false_and, false_or, true_and]
  · rw [renderScaled_centred hwide hcut, Scaler.inside_run hloads hstores hrows, Nat.zero_add]
    simp only [hwide, Nat.not_lt_of_le hwide, false_and, or_false, true_and]

end

/-! ## The four cases -/

variable {p : Image} {b : WindowBuffer}

theorem gray_inside : Inside p b (renderScaled renderGraytoRGBX p b p.width p.height fun n => n) ↔
    p.height = 0 ∨ b.height = 0 ∨ p.width + 2 ≤ b.width ∧ 4 ∣ p.width ∨ b.width ≤ p.width ∧ 4 ∣ b.width := by
  rw [renderGraytoRGBX, inside_renderScaled id (by decide) (by decide) (fun _ => rfl),
    Scaler.rowPairs_eq_nil fun _ => rfl]
  · refine (or_congr ?_ ?_).trans or_assoc
    · simp only [gray, id_eq, turns_one, minh]
      split
      · omega
      · omega
    · simp only [gray, id_eq, turns_four]
      omega
  · intro yd hyd
    obtain ⟨j, hj, rfl⟩ := (Scaler.mem_rowPairs (fun _ => rfl)).mp hyd
    simp only [gray, id_eq, turns_one, minh] at hj ⊢
    split at hj
    · omega
    · omega

theorem fourOfThree_inside :
    Inside p b (renderScaled renderto4of3RGBX p b (((p.width : Int) * 3).tdiv 4) (((p.height : Int) * 3).tdiv 4)
      fun n => (n * 4).tdiv 3) ↔
    p.height < 2 ∨ b.height < 2 ∨ p.width * 3 / 4 + 2 ≤ b.width ∧ 4 ∣ p.width ∨
      b.width ≤ p.width * 3 / 4 ∧ 3 ∣ b.width := by
  have hsize : ∀ n : Nat, ((n : Int) * 3).tdiv 4 = ((n * 3 / 4 : Nat) : Int) := fun _ => rfl
  rw [renderto4of3RGBX, hsize, hsize, inside_renderScaled (fun n => n * 4 / 3) (by decide)
    (by decide) (fun _ => rfl)]
  · have hnil : fourOfThree.rowPairs (turns (fourOfThree.round (minh p b (p.height * 3 / 4)
        fun n => n * 4 / 3)) fourOfThree.rows) 0 0 = [] ↔ minh p b (p.height * 3 / 4) (fun n => n * 4 / 3) < 2 := by
      rw [show fourOfThree.rows = 1 from rfl, show fourOfThree.round = id from rfl, id_eq, turns_one]
      exact Scaler.rowPairs_fourOfThree_eq_nil
    have hthird : b.width * 4 / 3 = b.width + b.width / 3 := by omega
    rw [hnil]
    clear hnil
    refine (or_congr ?_ ?_).trans or_assoc
    · simp only [minh]
      split
      · omega
      · omega
    · simp only [fourOfThree, id_eq, turns_four, fourths_eq_zero, hthird]
      omega
  · intro yd hyd
    have hpair := Scaler.mem_rowPairs_fourOfThree (by omega) hyd
    simp only [fourOfThree, id_eq, turns_one, minh] at hpair
    split at hpair
    · omega
    · omega

theorem threeOfOne_inside :
    Inside p b (renderScaled renderto3of1RGBX p b ((p.width : Int).tdiv 3) ((p.height : Int).tdiv 3)
      fun n => n * 3) ↔
    p.height < 3 ∨ b.height = 0 ∨ ¬(b.width = p.width / 3 + 1 ∧ 3 ∣ p.width) := by
  have hsize : ∀ n : Nat, (n : Int).tdiv 3 = ((n / 3 : Nat) : Int) := fun _ => rfl
  have hturns : ∀ n : Nat, turns ((n : Int).tdiv 3 * 3) 3 = n / 3 := by
    intro n
    rw [hsize, show ((n / 3 : Nat) : Int) * 3 = ((n / 3 * 3 : Nat) : Int) from rfl,
      turns_natCast _ (by decide)]
    omega
  rw [renderto3of1RGBX, hsize, hsize, inside_renderScaled (fun n => n * 3) (by decide) (by decide)
    (fun _ => rfl), Scaler.rowPairs_eq_nil fun _ => rfl]
  · refine (or_congr ?_ ?_).trans or_assoc
    · simp only [threeOfOne, hturns, minh]
      split
      · omega
      · omega
    · simp only [threeOfOne, hturns]
      omega
  · intro yd hyd
    obtain ⟨j, hj, rfl⟩ := (Scaler.mem_rowPairs (fun _ => rfl)).mp hyd
    simp only [threeOfOne, hturns, minh] at hj ⊢
    split at hj
    · omega
    · omega

theorem twoOfOne_inside :
    Inside p b (renderScaled renderto2of1RGBX p b ((p.width : Int).tdiv 2) ((p.height : Int).tdiv 2)
      fun n => n * 2) ↔
    p.height = 0 ∨ b.height = 0 ∨ ¬(b.width = p.width / 2 + 1 ∧ 2 ∣ p.width) := by
  have hsize : ∀ n : Nat, (n : Int).tdiv 2 = ((n / 2 : Nat) : Int) := fun _ => rfl
  have hturns : ∀ n : Nat, turns n 2 = (n + 1) / 2 := fun n => turns_natCast n (by decide)
  rw [renderto2of1RGBX, hsize, hsize, inside_renderScaled (fun n => n * 2) (by decide) (by decide)
    (fun _ => rfl), Scaler.rowPairs_eq_nil fun _ => rfl]
  · refine (or_congr ?_ ?_).trans or_assoc
    · simp only [twoOfOne, id_eq, hturns, minh]
      split
      · omega
      · omega
    · simp only [twoOfOne, id_eq, hturns]
      omega
  · intro yd hyd
    obtain ⟨j, hj, rfl⟩ := (Scaler.mem_rowPairs (fun _ => rfl)).mp hyd
    simp only [twoOfOne, id_eq, hturns, minh] at hj ⊢
    split at hj
    · omega
    · omega

/-! ## The main result -/

/-- The sizes at which the last group of pixels of every row is inside. -/
def Fits (p : Image) (b : WindowBuffer) : Prop :=
  match scaleType p.width with
  | .scaleNone => p.height = 0 ∨ b.height = 0 ∨ p.width + 2 ≤ b.width ∧ 4 ∣ p.width ∨
      b.width ≤ p.width ∧ 4 ∣ b.width
  | .scale3P4 => p.height < 2 ∨ b.height < 2 ∨ p.width * 3 / 4 + 2 ≤ b.width ∧ 4 ∣ p.width ∨
      b.width ≤ p.width * 3 / 4 ∧ 3 ∣ b.width
  | .scale1P2 => p.height = 0 ∨ b.height = 0 ∨ ¬(b.width = p.width / 2 + 1 ∧ 2 ∣ p.width)
  | .scale1P3 => p.height < 3 ∨ b.height = 0 ∨ ¬(b.width = p.width / 3 + 1 ∧ 3 ∣ p.width)

/-- For every image and every buffer that `renderFrame` lets through. -/
theorem renderFrame_inside_iff (p : Image) (b : WindowBuffer) :
    Inside p b (renderFrame (some p) true (some b)) ↔ b.supported = true → Fits p b := by
  rw [renderFrame]
  cases hformat : b.supported with
  | false => exact iff_of_true (fun a ha => (by cases ha)) fun h => (by cases h)
  | true =>
    rw [if_pos rfl, imp_iff_right rfl, Fits]
    cases scaleType p.width with
    | scaleNone => exact gray_inside
    | scale3P4 => exact fourOfThree_inside
    | scale1P2 => exact twoOfOne_inside
    | scale1P3 => exact threeOfOne_inside

/-- An image of six columns in the middle of a buffer of eight. -/
theorem renderFrame_outside : ¬Inside ⟨6, 1, 8⟩ ⟨8, 1, 8, 1⟩
    (renderFrame (some ⟨6, 1, 8⟩) true (some ⟨8, 1, 8, 1⟩)) := by
  intro h
  obtain ⟨_, x, hx, heq⟩ := h (.store 0 32) (by decide)
  dsimp only at hx heq
  omega

end CppSnippets.Render
