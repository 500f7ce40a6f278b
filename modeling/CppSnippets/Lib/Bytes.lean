import Mathlib.Data.List.Basic
import Mathlib.Data.Nat.Bitwise

/-!
# Big-endian words, flag bits and pieces of a byte string

The 16 and 32 bit words of a wire format as their bytes, the high bit of a word
as a flag over a count, and the cutting of a string into pieces of one size.
-/
namespace CppSnippets.Lib

/-! ## Words and their bytes -/

def be16 (x : UInt16) : List UInt8 := [.ofNat (x.toNat / 256), .ofNat x.toNat]

def ofBe16 (a b : UInt8) : UInt16 := .ofNat (a.toNat * 256 + b.toNat)

def be32 (x : UInt32) : List UInt8 :=
  [.ofNat (x.toNat / 16777216), .ofNat (x.toNat / 65536), .ofNat (x.toNat / 256), .ofNat x.toNat]

def ofBe32 (a b c d : UInt8) : UInt32 :=
  .ofNat (a.toNat * 16777216 + b.toNat * 65536 + c.toNat * 256 + d.toNat)

def le16 (x : UInt16) : List UInt8 := [.ofNat x.toNat, .ofNat (x.toNat / 256)]

def le32 (x : UInt32) : List UInt8 :=
  [.ofNat x.toNat, .ofNat (x.toNat / 256), .ofNat (x.toNat / 65536), .ofNat (x.toNat / 16777216)]

def ofLe16 (a b : UInt8) : UInt16 := .ofNat (a.toNat + b.toNat * 256)

@[simp] theorem be16_length (x : UInt16) : (be16 x).length = 2 := rfl
@[simp] theorem be32_length (x : UInt32) : (be32 x).length = 4 := rfl

theorem ofBe16_be16 (x : UInt16) :
    ofBe16 (.ofNat (x.toNat / 256)) (.ofNat x.toNat) = x := by
  have hx := x.toNat_lt
  apply UInt16.toNat_inj.mp
  simp only [ofBe16, UInt16.toNat_ofNat', UInt8.toNat_ofNat']
  omega

theorem ofLe16_eq {a b : UInt8} {x : UInt16} : ofLe16 a b = x ↔ [a, b] = le16 x := by
  have ha := a.toNat_lt
  have hb := b.toNat_lt
  have hx := x.toNat_lt
  rw [le16, List.cons.injEq, List.cons.injEq, ← UInt16.toNat_inj, ← UInt8.toNat_inj,
    ← UInt8.toNat_inj]
  simp only [ofLe16, UInt16.toNat_ofNat', UInt8.toNat_ofNat', and_true]
  omega

theorem ofBe32_be32 (x : UInt32) :
    ofBe32 (.ofNat (x.toNat / 16777216)) (.ofNat (x.toNat / 65536)) (.ofNat (x.toNat / 256))
      (.ofNat x.toNat) = x := by
  have hx := x.toNat_lt
  apply UInt32.toNat_inj.mp
  simp only [ofBe32, UInt32.toNat_ofNat', UInt8.toNat_ofNat']
  omega

theorem be32_ofBe32 (a b c d : UInt8) : be32 (ofBe32 a b c d) = [a, b, c, d] := by
  have ha := a.toNat_lt
  have hb := b.toNat_lt
  have hc := c.toNat_lt
  have hd := d.toNat_lt
  simp only [be32, ofBe32, List.cons.injEq, ← UInt8.toNat_inj, UInt8.toNat_ofNat',
    UInt32.toNat_ofNat', and_true]
  omega

/-! ## A flag in the high bit -/

theorem low15 (x : UInt16) : (x &&& 0x7fff).toNat = x.toNat % 0x8000 := by
  rw [UInt16.toNat_and]
  exact Nat.and_two_pow_sub_one_eq_mod x.toNat 15

/-- The flag is the part of the word above the count. -/
theorem flag16 (x : UInt16) : x &&& 0x8000 = 0 ↔ x.toNat < 0x8000 := by
  have hx := x.toNat_lt
  rw [← UInt16.toNat_inj, UInt16.toNat_and]
  change x.toNat &&& 2 ^ 15 = 0 ↔ _
  rw [Nat.and_two_pow, Nat.testBit_eq_decide_div_mod_eq]
  by_cases h : x.toNat < 0x8000
  · simp [Nat.div_eq_of_lt h, h]
  · have hd : x.toNat / 32768 % 2 = 1 := by omega
    simp [hd, h]

theorem or_flag16 (x : UInt16) (h : x.toNat < 0x8000) :
    (x ||| 0x8000).toNat = x.toNat + 0x8000 := by
  rw [UInt16.toNat_or, show (0x8000 : UInt16).toNat = 2 ^ 15 * 1 from rfl, Nat.or_comm,
    ← Nat.two_pow_add_eq_or_of_lt h, Nat.add_comm]

theorem or_flag16_low (x : UInt16) (h : x.toNat < 0x8000) : (x ||| 0x8000) &&& 0x7fff = x := by
  apply UInt16.toNat_inj.mp
  rw [low15, or_flag16 x h]
  omega

theorem low15_of_lt (x : UInt16) (h : x.toNat < 0x8000) : x &&& 0x7fff = x := by
  apply UInt16.toNat_inj.mp
  rw [low15, Nat.mod_eq_of_lt h]

theorem low24 (x : UInt32) : (x &&& 0x00ffffff).toNat = x.toNat % 0x1000000 := by
  rw [UInt32.toNat_and]
  exact Nat.and_two_pow_sub_one_eq_mod x.toNat 24

theorem flag32 (x : UInt32) : x &&& 0x80000000 = 0 ↔ x.toNat < 0x80000000 := by
  have hx := x.toNat_lt
  rw [← UInt32.toNat_inj, UInt32.toNat_and]
  change x.toNat &&& 2 ^ 31 = 0 ↔ _
  rw [Nat.and_two_pow, Nat.testBit_eq_decide_div_mod_eq]
  by_cases h : x.toNat < 0x80000000
  · simp [Nat.div_eq_of_lt h, h]
  · have hd : x.toNat / 2147483648 % 2 = 1 := by omega
    simp [hd, h]

/-! ## Pieces of one size -/

variable {α : Type*}

/-- The `i`-th piece of at most `n` elements. -/
def chunk (n : Nat) (l : List α) (i : Nat) : List α := (l.drop (i * n)).take n

theorem chunks_flatten (n : Nat) (l : List α) (k : Nat) :
    ((List.range k).map (chunk n l)).flatten = l.take (k * n) := by
  induction k with
  | zero => simp
  | succ k ih =>
    rw [List.range_succ, List.map_append, List.flatten_append, ih, Nat.succ_mul, List.take_add]
    simp [chunk]

/-- The pieces up to the one that reaches the end are the whole string. -/
theorem chunks_whole {n : Nat} {l : List α} {k : Nat} (h : l.length ≤ k * n) :
    ((List.range k).map (chunk n l)).flatten = l := by
  rw [chunks_flatten, List.take_of_length_le h]

theorem chunk_length_le (n : Nat) (l : List α) (i : Nat) : (chunk n l i).length ≤ n :=
  List.length_take_le _ _

end CppSnippets.Lib
