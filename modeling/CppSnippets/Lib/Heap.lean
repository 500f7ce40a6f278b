import Mathlib.Data.List.Basic
import Mathlib.Logic.Function.Basic

/-!
# A heap of blocks

A block is allocated with a number of cells and known by its address, and addresses are
not used again. An access to a block that is not there, or outside of one, has no result.
-/
namespace CppSnippets.Lib

variable {α : Type*}

structure Heap (α : Type*) where
  blocks : Nat → Option (List α)
  /-- The address of the next block. -/
  next : Nat
  unused : ∀ id, next ≤ id → blocks id = none

namespace Heap

def empty : Heap α := ⟨fun _ => none, 0, fun _ _ => rfl⟩

theorem lt_next {h : Heap α} {id : Nat} {b : List α} (hb : h.blocks id = some b) : id < h.next := by
  by_contra hle
  rw [h.unused id (by omega)] at hb
  cases hb

/-- A new block, with what its cells hold. -/
def malloc (h : Heap α) (b : List α) : Heap α where
  blocks := Function.update h.blocks h.next (some b)
  next := h.next + 1
  unused id hid := by
    rw [Function.update_of_ne (by omega)]
    exact h.unused id (by omega)

/-- The heap without a block. -/
def erase (h : Heap α) (id : Nat) : Heap α where
  blocks := Function.update h.blocks id none
  next := h.next
  unused id' hid := by
    by_cases heq : id' = id
    · rw [heq, Function.update_self]
    · rw [Function.update_of_ne heq]
      exact h.unused id' hid

def free (h : Heap α) (id : Nat) : Option (Heap α) :=
  match h.blocks id with
  | none => none
  | some _ => some (h.erase id)

/-- Writes some cells of a block from an offset on. -/
def write (h : Heap α) (id off : Nat) (l : List α) : Option (Heap α) :=
  match hb : h.blocks id with
  | none => none
  | some b =>
    if off + l.length ≤ b.length then
      some { h with
        blocks := Function.update h.blocks id (some (b.take off ++ l ++ b.drop (off + l.length)))
        unused := fun id' hid => by
          have hlt := lt_next hb
          rw [Function.update_of_ne (by omega)]
          exact h.unused id' hid }
    else none

/-- The block moves to a new address with as many of its cells as fit; `fill` is in the
others. -/
def realloc (h : Heap α) (id n : Nat) (fill : α) : Option (Heap α) :=
  match h.blocks id with
  | none => none
  | some b => some ((h.erase id).malloc (b.take n ++ List.replicate (n - b.length) fill))

variable {h h' : Heap α} {id n : Nat} {b : List α}

/-- Nothing but one block has changed, and new ones have come. -/
structure Touches (h : Heap α) (id : Nat) (h' : Heap α) : Prop where
  others : ∀ j, j ≠ id → j < h.next → h'.blocks j = h.blocks j
  next_le : h.next ≤ h'.next

theorem Touches.trans {h'' : Heap α} (h₁ : Touches h id h') (h₂ : Touches h' id h'') :
    Touches h id h'' := by
  constructor
  · intro j hj hlt
    rw [h₂.others j hj (Nat.lt_of_lt_of_le hlt h₁.next_le), h₁.others j hj hlt]
  · exact Nat.le_trans h₁.next_le h₂.next_le

theorem Touches.trans_new {h'' : Heap α} (h₁ : Touches h id h') (h₂ : Touches h' h.next h'') :
    Touches h id h'' := by
  constructor
  · intro j hj hlt
    rw [h₂.others j (Nat.ne_of_lt hlt) (Nat.lt_of_lt_of_le hlt h₁.next_le), h₁.others j hj hlt]
  · exact Nat.le_trans h₁.next_le h₂.next_le

theorem malloc_self (h : Heap α) (b : List α) : (h.malloc b).blocks h.next = some b :=
  Function.update_self ..

theorem malloc_touches (h : Heap α) (b : List α) (id : Nat) : Touches h id (h.malloc b) := by
  constructor
  · intro j _ hlt
    exact Function.update_of_ne (Nat.ne_of_lt hlt) _ _
  · exact Nat.le_succ _

theorem erase_touches (h : Heap α) (id : Nat) : Touches h id (h.erase id) := by
  constructor
  · intro j hj _
    exact Function.update_of_ne hj _ _
  · exact Nat.le_refl _

theorem free_eq (hb : h.blocks id = some b) : h.free id = some (h.erase id) := by
  rw [free, hb]

theorem write_eq (off : Nat) (l : List α) (hb : h.blocks id = some b)
    (hle : off + l.length ≤ b.length) :
    ∃ h', h.write id off l = some h' ∧ Touches h id h' ∧
      h'.blocks id = some (b.take off ++ l ++ b.drop (off + l.length)) := by
  unfold write
  split
  · rename_i hnone
    rw [hb] at hnone
    cases hnone
  · rename_i b' hb'
    obtain rfl := Option.some.inj (hb'.symm.trans hb)
    rw [if_pos hle]
    refine ⟨_, rfl, ⟨fun j hj _ => ?_, Nat.le_refl _⟩, ?_⟩
    · exact Function.update_of_ne hj _ _
    · exact Function.update_self ..

/-- Cells written behind those that are in use. -/
theorem write_append {c rest : List α} (off : Nat) (l : List α)
    (hb : h.blocks id = some (c ++ rest)) (hoff : off = c.length) (hle : l.length ≤ rest.length) :
    ∃ h', h.write id off l = some h' ∧ Touches h id h' ∧
      h'.blocks id = some (c ++ l ++ rest.drop l.length) := by
  obtain ⟨h', hw, ht, hb'⟩ := write_eq off l hb
    (by rw [List.length_append]; omega)
  refine ⟨h', hw, ht, ?_⟩
  rw [hb', hoff, List.take_left, List.drop_append, Nat.add_sub_cancel_left,
    List.drop_of_length_le (by omega), List.nil_append]

theorem realloc_eq (hb : h.blocks id = some b) (hle : b.length ≤ n) (fill : α) :
    ∃ h', h.realloc id n fill = some h' ∧ Touches h id h' ∧
      h'.blocks h.next = some (b ++ List.replicate (n - b.length) fill) := by
  rw [realloc, hb]
  dsimp only
  rw [List.take_of_length_le hle]
  exact ⟨_, rfl, (erase_touches h id).trans (malloc_touches _ _ id), malloc_self _ _⟩

end Heap
end CppSnippets.Lib
