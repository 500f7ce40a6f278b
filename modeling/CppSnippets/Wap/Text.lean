import Mathlib.Data.List.Basic
import Mathlib.Algebra.Order.Ring.Int

/-!
# The text functions of the C and C++ library that the WAP server calls

`isspace`, `atoi`, `std::search`, `std::find`, `std::getline`, the stream
extractions and `std::map<std::string, std::string>`, on lists of bytes. A
position is an offset; `search` and `find` answer with the end when there is no
occurrence, as the library does.
-/
namespace CppSnippets.Wap

abbrev Byte := UInt8
abbrev Bytes := List UInt8

/-- The bytes of a string literal. -/
def bytes (s : String) : Bytes := s.toList.flatMap String.utf8EncodeChar

/-- How a run of the server's code ends other than by returning. -/
inductive Trap where
  /-- An exception with this `what()`. -/
  | thrown (what : String)
  /-- `assert(0)`. -/
  | assertion
  /-- An access that the language leaves undefined. -/
  | undefined
  /-- A loop that never ends. -/
  | diverges
  deriving DecidableEq

/-- What the code leaves to its platform: the width of `long` and `size_t`, the
conversion from UTF-16LE that `iconv` makes, and what an `unsigned int` on the
stack holds before anything is stored in it. -/
structure Env where
  wordBits : Nat
  word_ge : 32 ≤ wordBits
  iconv : Bytes → Option Bytes
  junk : Nat

/-- Words of 32 bits, and nothing that `iconv` converts. -/
def Env.ilp32 : Env := ⟨32, Nat.le_refl _, fun _ => none, 0⟩

/-! ## Characters and numbers -/

def isspace (b : Byte) : Bool := b == 32 || (9 ≤ b && b ≤ 13)

def isdigit (b : Byte) : Bool := 48 ≤ b && b ≤ 57

/-- The value of a string of digits. -/
def decimal (s : Bytes) : Nat := s.foldl (fun n b => 10 * n + (b.toNat - 48)) 0

/-- The digits that `<<` and `%u` print. -/
def digits (n : Nat) : Bytes := (Nat.toDigits 10 n).map Char.toUInt8

/-- What `<<` prints of an `int`. -/
def signedDigits (n : Int) : Bytes :=
  if n < 0 then bytes "-" ++ digits n.natAbs else digits n.natAbs

/-- The magnitude that a number parser reads. -/
def magnitude (s : Bytes) : Nat := decimal (s.takeWhile isdigit)

/-- `strtol` in base 10, for a `long` of `w` bits: it stops at the bounds. -/
def strtol (w : Nat) (s : Bytes) : Int :=
  match s.dropWhile isspace with
  | 45 :: t => max (-2 ^ (w - 1)) (-magnitude t)
  | 43 :: t => min (2 ^ (w - 1) - 1) (magnitude t)
  | t => min (2 ^ (w - 1) - 1) (magnitude t)

/-- `(int) strtol(s, 0, 10)`. -/
def atoi (env : Env) (s : Bytes) : Int := (strtol env.wordBits s).bmod (2 ^ 32)

/-- An `int` stored in an `unsigned int`. -/
def toUnsigned (n : Int) : UInt32 := .ofInt n

theorem digits_ne_nil (n : Nat) : digits n ≠ [] := by
  unfold digits
  exact fun h => Nat.toDigits_ne_nil (List.map_eq_nil_iff.mp h)

theorem toUInt8_of_isDigit {c : Char} (h : c.isDigit = true) :
    c.toUInt8.toNat = c.toNat ∧ isdigit c.toUInt8 = true := by
  have hc : 48 ≤ c.toNat ∧ c.toNat ≤ 57 := by
    simpa [Char.isDigit, UInt32.le_iff_toNat_le] using h
  have ht : c.toUInt8.toNat = c.toNat := by
    change c.val.toUInt8.toNat = c.toNat
    rw [UInt32.toNat_toUInt8]
    exact Nat.mod_eq_of_lt (by have := hc.2; unfold Char.toNat at this; omega)
  refine ⟨ht, ?_⟩
  simp only [isdigit, Bool.and_eq_true, decide_eq_true_eq, UInt8.le_iff_toNat_le, ht]
  exact hc

theorem isdigit_of_mem_digits {n : Nat} {b : Byte} (h : b ∈ digits n) : isdigit b = true := by
  obtain ⟨c, hc, rfl⟩ := List.mem_map.mp h
  exact (toUInt8_of_isDigit (Nat.isDigit_of_mem_toDigits (by decide) (by decide) hc)).2

/-- What is printed reads back. -/
theorem decimal_digits (n : Nat) : decimal (digits n) = n := by
  have key : ∀ (cs : List Char) (k : Nat), (∀ c ∈ cs, c.isDigit = true) →
      (cs.map Char.toUInt8).foldl (fun n b => 10 * n + (b.toNat - 48)) k =
        cs.foldl (fun n c => 10 * n + (c.toNat - '0'.toNat)) k := by
    intro cs
    induction cs with
    | nil => intro k _; rfl
    | cons c cs ih =>
      intro k hcs
      simp only [List.map_cons, List.foldl_cons]
      rw [(toUInt8_of_isDigit (hcs c List.mem_cons_self)).1]
      exact ih _ fun d hd => hcs d (List.mem_cons_of_mem _ hd)
  have hd : ∀ c ∈ Nat.toDigits 10 n, c.isDigit = true := fun c hc =>
    Nat.isDigit_of_mem_toDigits (by decide) (by decide) hc
  calc decimal (digits n)
      = (Nat.toDigits 10 n).foldl (fun n c => 10 * n + (c.toNat - '0'.toNat)) 0 := key _ 0 hd
    _ = Nat.ofDigitChars 10 (Nat.toDigits 10 n) 0 := Nat.ofDigitChars_eq_foldl.symm
    _ = n := Nat.ofDigitChars_toDigits (by decide) (by decide)

/-- A printed number reads back up to a byte that is no digit. -/
theorem magnitude_digits (n : Nat) {c : Byte} (hc : isdigit c = false) (s : Bytes) :
    magnitude (digits n ++ c :: s) = n := by
  unfold magnitude
  rw [List.takeWhile_append_of_pos fun b hb => isdigit_of_mem_digits hb,
    List.takeWhile_cons_of_neg (by simp [hc]), List.append_nil, decimal_digits]

theorem strtol_of_isdigit (w : Nat) {b : Byte} (hb : isdigit b = true) (s : Bytes) :
    strtol w (b :: s) = min ((2 : Int) ^ (w - 1) - 1) (magnitude (b :: s) : Int) := by
  have hlo : 48 ≤ b.toNat ∧ b.toNat ≤ 57 := by
    simpa [isdigit, UInt8.le_iff_toNat_le] using hb
  have hspace : isspace b = false := by
    have hne : b ≠ 32 := by
      rintro rfl
      exact absurd hlo.1 (by decide)
    have hle : ¬b ≤ 13 := by
      rw [UInt8.le_iff_toNat_le]
      have : (13 : UInt8).toNat = 13 := rfl
      omega
    simp [isspace, hne, hle]
  unfold strtol
  rw [List.dropWhile_cons_of_neg (by simp [hspace])]
  split
  · rename_i heq
    cases heq
    exact absurd hlo.1 (by decide)
  · rename_i heq
    cases heq
    exact absurd hlo.1 (by decide)
  · rfl

/-- `atoi` of a printed `int`. -/
theorem atoi_digits (env : Env) {n : Nat} (hn : n < 2 ^ 31) {c : Byte} (hc : isdigit c = false)
    (s : Bytes) : atoi env (digits n ++ c :: s) = n := by
  obtain ⟨b, ds, hb⟩ := List.exists_cons_of_ne_nil (digits_ne_nil n)
  have hdb : isdigit b = true := isdigit_of_mem_digits (n := n) (by rw [hb]; exact List.mem_cons_self)
  have hpow : (2 : Int) ^ 31 ≤ 2 ^ (env.wordBits - 1) :=
    pow_le_pow_right₀ (by decide) (by have := env.word_ge; omega)
  have hmag := magnitude_digits n hc s
  unfold atoi
  rw [hb, List.cons_append, strtol_of_isdigit env.wordBits hdb]
  rw [hb, List.cons_append] at hmag
  rw [hmag, min_eq_right (by omega)]
  exact Int.bmod_eq_of_le (by omega) (by omega)

/-! ## Searching -/

/-- `std::search`: the offset of the first `k` in `s`, or the length of `s`. -/
def search (k : Bytes) : Bytes → Nat
  | [] => 0
  | b :: s => if k.isPrefixOf (b :: s) then 0 else search k s + 1

/-- `std::find`: the offset of the first `c` in `s`, or the length of `s`. -/
def find (c : Byte) (s : Bytes) : Nat := s.findIdx (· == c)

/-- `skipspace`: the offset of the first byte from `beg` on that is no space. -/
def skipspace (s : Bytes) (beg : Nat) : Nat := beg + (s.drop beg).findIdx fun b => !isspace b

theorem search_le (k s : Bytes) : search k s ≤ s.length := by
  induction s with
  | nil => exact Nat.le_refl _
  | cons b s ih =>
    simp only [search, List.length_cons]
    split <;> omega

theorem prefix_at_search {k s : Bytes} (h : search k s < s.length) : k <+: s.drop (search k s) := by
  induction s with
  | nil => exact absurd h (Nat.lt_irrefl 0)
  | cons b s ih =>
    by_cases hp : k.isPrefixOf (b :: s) = true
    · rw [search, if_pos hp]
      exact List.isPrefixOf_iff_prefix.mp hp
    · rw [search, if_neg hp] at h ⊢
      exact ih (Nat.lt_of_succ_lt_succ h)

theorem search_le_at {k s : Bytes} {i : Nat} (hi : i < s.length) (h : k <+: s.drop i) :
    search k s ≤ i := by
  induction s generalizing i with
  | nil => exact absurd hi (Nat.not_lt_zero _)
  | cons b s ih =>
    by_cases hp : k.isPrefixOf (b :: s) = true
    · rw [search, if_pos hp]
      exact Nat.zero_le _
    · rw [search, if_neg hp]
      cases i with
      | zero => exact absurd (List.isPrefixOf_iff_prefix.mpr h) hp
      | succ i => exact Nat.succ_le_succ (ih (Nat.lt_of_succ_lt_succ hi) h)

theorem search_add_le {k s : Bytes} (h : search k s < s.length) :
    search k s + k.length ≤ s.length := by
  have hle := (prefix_at_search h).length_le
  rw [List.length_drop] at hle
  omega

/-- In a part of the text that contains the first occurrence, it is the first. -/
theorem search_take {k s : Bytes} {n : Nat} (h : search k s + k.length ≤ n) (hk : k ≠ [])
    (hs : search k s < s.length) : search k (s.take n) = search k s := by
  have hpos := List.length_pos_iff.mpr hk
  have hlen := search_add_le hs
  have hlt : search k s < (s.take n).length := by
    rw [List.length_take]
    omega
  apply Nat.le_antisymm
  · apply search_le_at hlt
    rw [List.drop_take]
    exact List.prefix_take_iff.mpr ⟨prefix_at_search hs, by omega⟩
  · by_contra hgt
    have hlt' : search k (s.take n) < (s.take n).length := by omega
    have hp := prefix_at_search hlt'
    rw [List.drop_take] at hp
    rw [List.length_take] at hlt'
    exact hgt (search_le_at (by omega) (hp.trans (List.take_prefix _ _)))

/-- A part that ends inside the first occurrence has none. -/
theorem search_take_of_lt {k s : Bytes} {n : Nat} (h : n < search k s + k.length) :
    search k (s.take n) = (s.take n).length := by
  apply Nat.le_antisymm (search_le _ _)
  by_contra hlt
  have hlt' : search k (s.take n) < (s.take n).length := by omega
  have hend := search_add_le hlt'
  have hp := prefix_at_search hlt'
  rw [List.drop_take] at hp
  rw [List.length_take] at hlt' hend
  have := search_le_at (by omega) (hp.trans (List.take_prefix _ _))
  omega

/-- What is found occurs. -/
theorem search_lt_iff {k s : Bytes} (hk : k ≠ []) : search k s < s.length ↔ k <:+: s := by
  constructor
  · intro h
    obtain ⟨t, ht⟩ := prefix_at_search h
    exact ⟨s.take (search k s), t, by rw [List.append_assoc, ht, List.take_append_drop]⟩
  · rintro ⟨u, v, rfl⟩
    have hpos := List.length_pos_iff.mpr hk
    have hlt : u.length < (u ++ k ++ v).length := by
      simp only [List.length_append]
      omega
    refine Nat.lt_of_le_of_lt (search_le_at hlt ?_) hlt
    rw [List.append_assoc, List.drop_left]
    exact List.prefix_append _ _

theorem find_le (c : Byte) (s : Bytes) : find c s ≤ s.length := List.findIdx_le_length

theorem le_skipspace (s : Bytes) (beg : Nat) : beg ≤ skipspace s beg := Nat.le_add_right _ _

theorem skipspace_le (s : Bytes) {beg : Nat} (h : beg ≤ s.length) :
    skipspace s beg ≤ s.length := by
  have hi := @List.findIdx_le_length _ (fun b => !isspace b) (s.drop beg)
  rw [List.length_drop] at hi
  unfold skipspace
  omega

/-- Skipping stops at a byte that is no space, and at none before it. -/
theorem not_isspace_skipspace {s : Bytes} {beg : Nat} (h : skipspace s beg < s.length) :
    isspace s[skipspace s beg] = false := by
  have hlt : (s.drop beg).findIdx (fun b => !isspace b) < (s.drop beg).length := by
    unfold skipspace at h
    rw [List.length_drop]
    omega
  have hb := @List.findIdx_getElem _ (fun b => !isspace b) (s.drop beg) hlt
  simpa [skipspace] using hb

theorem skipspace_le_of_not_isspace {s : Bytes} {beg i : Nat} (hb : beg ≤ i) (hi : i < s.length)
    (hs : isspace s[i] = false) : skipspace s beg ≤ i := by
  by_contra hlt
  have hk : i - beg < (s.drop beg).findIdx fun b => !isspace b := by
    unfold skipspace at hlt
    omega
  have hnot := List.not_of_lt_findIdx hk
  have he : beg + (i - beg) = i := by omega
  simp only [List.getElem_drop, he, hs] at hnot
  exact Bool.noConfusion hnot

theorem findIdx_append_of_false {p : Byte → Bool} {s : Bytes} (h : ∀ b ∈ s, p b = false)
    (t : Bytes) : (s ++ t).findIdx p = s.length + t.findIdx p := by
  rw [List.findIdx_append, List.findIdx_eq_length_of_false h, if_neg (Nat.lt_irrefl _),
    Nat.add_comm]

theorem find_append_of_not_mem {c : Byte} {s : Bytes} (h : c ∉ s) (t : Bytes) :
    find c (s ++ t) = s.length + find c t := by
  apply findIdx_append_of_false
  intro b hb
  apply beq_eq_false_iff_ne.mpr
  rintro rfl
  exact h hb

/-- The spaces at a position are skipped. -/
theorem skipspace_append (pre : Bytes) {gap : Bytes} (h : ∀ b ∈ gap, isspace b = true)
    (rest : Bytes) : skipspace (pre ++ gap ++ rest) pre.length =
      pre.length + gap.length + rest.findIdx fun b => !isspace b := by
  rw [skipspace, List.append_assoc, List.drop_left,
    findIdx_append_of_false fun b hb => by rw [h b hb]; rfl, Nat.add_assoc]

/-- The bytes from offset `a` up to offset `b`. -/
def slice (s : Bytes) (a b : Nat) : Bytes := (s.drop a).take (b - a)

theorem slice_append (pre s post : Bytes) :
    slice (pre ++ s ++ post) pre.length (pre.length + s.length) = s := by
  rw [slice, List.append_assoc, List.drop_left, Nat.add_sub_cancel_left, List.take_left]

theorem slice_length {s : Bytes} {a b : Nat} (h : b ≤ s.length) : (slice s a b).length = b - a := by
  rw [slice, List.length_take, List.length_drop]
  omega

theorem slice_split (s : Bytes) {a b c : Nat} (hab : a ≤ b) (hbc : b ≤ c) :
    slice s a c = slice s a b ++ slice s b c := by
  have hlen : c - a = (b - a) + (c - b) := by omega
  have hdrop : s.drop b = (s.drop a).drop (b - a) := by
    rw [List.drop_drop, Nat.add_sub_cancel' hab]
  rw [slice, slice, slice, hlen, List.take_add, hdrop]

/-! ## Streams -/

/-- The next word of a stream, and the rest. -/
def word (s : Bytes) : Bytes × Bytes :=
  let t := s.dropWhile isspace
  (t.takeWhile fun b => !isspace b, t.dropWhile fun b => !isspace b)

/-- `>>` into an `unsigned int`: nothing is stored at the end of the stream, the
largest value on overflow, and a minus sign negates. -/
def extractUnsigned (s : Bytes) : Option Nat :=
  let saturate (n : Nat) := if n < 2 ^ 32 then n else 2 ^ 32 - 1
  match s.dropWhile isspace with
  | [] => none
  | 45 :: t =>
      if magnitude t < 2 ^ 32 then some ((2 ^ 32 - magnitude t) % 2 ^ 32)
      else some (2 ^ 32 - 1)
  | 43 :: t => some (saturate (magnitude t))
  | t => some (saturate (magnitude t))

/-- `boost::lexical_cast<unsigned int>`: the whole text is one number. -/
def lexicalUnsigned (s : Bytes) : Except Trap Nat :=
  let whole (t : Bytes) := !t.isEmpty && t.all isdigit && decide (decimal t < 2 ^ 32)
  let bad := .error (.thrown
    "bad lexical cast: source type value could not be interpreted as target")
  match s with
  | 45 :: t => if whole t then .ok ((2 ^ 32 - decimal t) % 2 ^ 32) else bad
  | 43 :: t => if whole t then .ok (decimal t) else bad
  | t => if whole t then .ok (decimal t) else bad

/-- The lines that `while (std::getline(ss, l))` sees, `l` being read so far. -/
def getlines (l : Bytes) : Bytes → List Bytes
  | [] => if l.isEmpty then [] else [l]
  | b :: s => if b = 10 then l :: getlines [] s else getlines (l ++ [b]) s

/-! ## `std::map<std::string, std::string>` -/

/-- Entries in the order of their keys. -/
abbrev StrMap := List (Bytes × Bytes)

namespace StrMap

def find (k : Bytes) (m : StrMap) : Option Bytes := m.lookup k

/-- `m[k] = f old`, where a missing entry is made with an empty value first. -/
def upsert (k : Bytes) (f : Bytes → Bytes) : StrMap → StrMap
  | [] => [(k, f [])]
  | (k', v) :: m =>
      if k = k' then (k', f v) :: m
      else if k < k' then (k, f []) :: (k', v) :: m
      else (k', v) :: upsert k f m

/-- `m[k] = v`. -/
def assign (k v : Bytes) (m : StrMap) : StrMap := m.upsert k fun _ => v

/-- `m[k]` as an expression: the entry is there afterwards. -/
def touch (k : Bytes) (m : StrMap) : StrMap := m.upsert k id

/-- `m.insert(n.begin(), n.end())`: entries that exist stay as they are. -/
def insert (m n : StrMap) : StrMap :=
  n.foldl (fun m e => if (find e.1 m).isSome then m else m.assign e.1 e.2) m

end StrMap

end CppSnippets.Wap
