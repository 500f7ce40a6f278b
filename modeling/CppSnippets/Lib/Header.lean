import Mathlib.Data.List.DropRight

/-!
# Header fields

A header is a list of lines. A field is a line `name: value`, with its name in upper or
lower case and blanks around its value, and a length is a value of digits.
-/
namespace CppSnippets.Lib.Header

/-- The lines of a text, without their ends. -/
def lines (s : List UInt8) : List (List UInt8) :=
  (s.splitOn 10).map fun l => if l.getLast? = some 13 then l.dropLast else l

def isBlank (b : UInt8) : Bool := b == 32 || b == 9

def isDigit (b : UInt8) : Bool := 48 ≤ b && b ≤ 57

def lower (b : UInt8) : UInt8 := if 65 ≤ b && b ≤ 90 then b + 32 else b

/-- The value, if the line is a field of this name. -/
def value (name line : List UInt8) : Option (List UInt8) :=
  match line.dropWhile (· != 58) with
  | [] => none
  | _ :: v =>
      if (line.takeWhile (· != 58)).map lower = name.map lower then
        some ((v.dropWhile isBlank).rdropWhile isBlank)
      else none

/-- The number that digits write. -/
def number (v : List UInt8) : Option Nat :=
  if v ≠ [] ∧ v.all isDigit = true then
    some (v.foldl (fun n b => 10 * n + (b.toNat - 48)) 0)
  else none

/-- The length that the first field of this name announces. -/
def length (name : List UInt8) (ls : List (List UInt8)) : Option Nat :=
  (ls.findSome? (value name)).bind number

variable {name line v : List UInt8}

/-- The shape of a field. -/
theorem value_eq_some (h : value name line = some v) : ∃ nm before behind : List UInt8,
    line = nm ++ 58 :: (before ++ v ++ behind) ∧ 58 ∉ nm ∧ nm.map lower = name.map lower ∧
      (∀ b ∈ before, isBlank b = true) ∧ ∀ b ∈ behind, isBlank b = true := by
  have hline := List.takeWhile_append_dropWhile (p := (· != 58)) (l := line)
  have hnm : 58 ∉ line.takeWhile (· != 58) := fun hmem => by
    have := List.mem_takeWhile_imp hmem
    cases this
  unfold value at h
  split at h
  · cases h
  · rename_i b t hdrop
    obtain rfl : b = 58 := by
      have hhead := List.head?_dropWhile_not (· != 58) line
      rw [hdrop] at hhead
      simpa using hhead
    split at h
    · rename_i hname
      cases h
      refine ⟨_, t.takeWhile isBlank, (t.dropWhile isBlank).rtakeWhile isBlank, ?_, hnm, hname,
        fun c hc => List.mem_takeWhile_imp hc, fun c hc => List.mem_rtakeWhile_imp hc⟩
      rw [List.append_assoc, List.rdropWhile_append_rtakeWhile, List.takeWhile_append_dropWhile,
        ← hdrop, hline]
    · cases h

theorem number_eq_some {n : Nat} (h : number v = some n) : v ≠ [] ∧ (∀ b ∈ v, isDigit b = true) ∧
    v.foldl (fun n b => 10 * n + (b.toNat - 48)) 0 = n := by
  unfold number at h
  split at h
  · rename_i hv
    exact ⟨hv.1, List.all_eq_true.mp hv.2, Option.some.inj h⟩
  · cases h

end CppSnippets.Lib.Header
