import Mathlib.Logic.Function.Basic

/-!
# Objects with shared owners

An object lives exactly as long as there are shared pointers to it. A weak pointer
is an address, of which `objects` says whether the object still lives; addresses are
not used again.
-/
namespace CppSnippets.Lib

variable {α : Type*}

@[ext]
structure Shared (α : Type*) where
  objects : Nat → Option α
  /-- The number of shared pointers to an object. -/
  uses : Nat → Nat
  /-- The address of the next object. -/
  next : Nat
  counted : ∀ id, objects id = none ↔ uses id = 0
  unused : ∀ id, next ≤ id → uses id = 0

namespace Shared

def empty : Shared α where
  objects _ := none
  uses _ := 0
  next := 0
  counted _ := ⟨fun _ => rfl, fun _ => rfl⟩
  unused _ _ := rfl

/-- A new object with one pointer to it, at the address `next`. -/
def make (h : Shared α) (x : α) : Shared α where
  objects := Function.update h.objects h.next (some x)
  uses := Function.update h.uses h.next 1
  next := h.next + 1
  counted id := by
    by_cases hid : id = h.next
    · subst hid
      rw [Function.update_self, Function.update_self]
      exact ⟨fun hx => (Option.some_ne_none x hx).elim, fun hx => (Nat.one_ne_zero hx).elim⟩
    · rw [Function.update_of_ne hid, Function.update_of_ne hid]
      exact h.counted id
  unused id hid := by
    rw [Function.update_of_ne (by omega)]
    exact h.unused id (by omega)

/-- One more pointer to an object that lives. -/
def acquire (h : Shared α) (id : Nat) : Shared α where
  objects := h.objects
  uses := Function.update h.uses id (if h.uses id = 0 then 0 else h.uses id + 1)
  next := h.next
  counted id' := by
    by_cases hid : id' = id
    · subst hid
      rw [Function.update_self, h.counted]
      split <;> omega
    · rw [Function.update_of_ne hid]
      exact h.counted id'
  unused id' hid := by
    have hnone := h.unused id' hid
    by_cases hid' : id' = id
    · subst hid'
      rw [Function.update_self, if_pos hnone]
    · rw [Function.update_of_ne hid']
      exact hnone

/-- One pointer less; with the last one the object goes. -/
def release (h : Shared α) (id : Nat) : Shared α where
  objects := Function.update h.objects id (if h.uses id ≤ 1 then none else h.objects id)
  uses := Function.update h.uses id (h.uses id - 1)
  next := h.next
  counted id' := by
    by_cases hid : id' = id
    · subst hid
      rw [Function.update_self, Function.update_self]
      split
      · exact ⟨fun _ => by omega, fun _ => rfl⟩
      · rw [h.counted]
        omega
    · rw [Function.update_of_ne hid, Function.update_of_ne hid]
      exact h.counted id'
  unused id' hid := by
    have hnone := h.unused id' hid
    by_cases hid' : id' = id
    · subst hid'
      rw [Function.update_self, hnone]
    · rw [Function.update_of_ne hid']
      exact hnone

def modify (h : Shared α) (id : Nat) (f : α → α) : Shared α where
  objects := Function.update h.objects id ((h.objects id).map f)
  uses := h.uses
  next := h.next
  counted id' := by
    by_cases hid : id' = id
    · subst hid
      rw [Function.update_self, Option.map_eq_none_iff]
      exact h.counted id'
    · rw [Function.update_of_ne hid]
      exact h.counted id'
  unused := h.unused

/-- An address that is not used. -/
def skip (h : Shared α) : Shared α where
  objects := h.objects
  uses := h.uses
  next := h.next + 1
  counted := h.counted
  unused id hid := h.unused id (by omega)

variable {h : Shared α} {id : Nat} {x : α}

theorem lt_next (hx : h.objects id = some x) : id < h.next := by
  by_contra hge
  have hnone := (h.counted id).mpr (h.unused id (Nat.le_of_not_lt hge))
  rw [hnone] at hx
  cases hx

theorem uses_pos (hx : h.objects id = some x) : 0 < h.uses id := by
  rw [Nat.pos_iff_ne_zero]
  intro hzero
  rw [(h.counted id).mpr hzero] at hx
  cases hx

theorem objects_next (h : Shared α) : h.objects h.next = none :=
  (h.counted _).mpr (h.unused _ (Nat.le_refl _))

/-- What a changed entry has is the new value or an old one of another address. -/
theorem of_update {β : Type*} {f : Nat → Option β} {a b : Nat} {o : Option β} {y : β}
    (hy : Function.update f a o b = some y) : (b = a ∧ o = some y) ∨ (b ≠ a ∧ f b = some y) := by
  by_cases hb : b = a
  · subst hb
    rw [Function.update_self] at hy
    exact .inl ⟨rfl, hy⟩
  · rw [Function.update_of_ne hb] at hy
    exact .inr ⟨hb, hy⟩

theorem objects_release (hlast : h.uses id ≤ 1) :
    (h.release id).objects = Function.update h.objects id none := by
  show Function.update h.objects id (if h.uses id ≤ 1 then none else h.objects id) = _
  rw [if_pos hlast]

theorem objects_modify {id' : Nat} (f : α → α) (hx : h.objects id' = some x) :
    ∃ y, (h.modify id f).objects id' = some y ∧ (y = x ∨ y = f x) := by
  by_cases hid : id' = id
  · subst hid
    refine ⟨f x, ?_, .inr rfl⟩
    show Function.update h.objects id' _ id' = _
    rw [Function.update_self, hx]
    rfl
  · exact ⟨x, (Function.update_of_ne hid ..).trans hx, .inl rfl⟩

/-! ## Pointers that come and go -/

theorem release_acquire (h : Shared α) (id : Nat) : (h.acquire id).release id = h := by
  have huses : (h.acquire id).uses id = if h.uses id = 0 then 0 else h.uses id + 1 :=
    Function.update_self ..
  refine Shared.ext ?_ ?_ rfl
  · show Function.update h.objects id (if (h.acquire id).uses id ≤ 1 then none else h.objects id) = _
    rw [Function.update_eq_self_iff, huses]
    by_cases hzero : h.uses id = 0
    · rw [if_pos hzero, if_pos (Nat.zero_le 1)]
      exact ((h.counted id).mpr hzero).symm
    · rw [if_neg hzero, if_neg (by omega)]
  · show Function.update (Function.update h.uses id _) id ((h.acquire id).uses id - 1) = _
    rw [Function.update_idem, Function.update_eq_self_iff, huses]
    split <;> omega

/-- The only pointer to a new object goes. -/
theorem release_make (h : Shared α) (x : α) : (h.make x).release h.next = h.skip := by
  have huses : (h.make x).uses h.next = 1 := Function.update_self ..
  refine Shared.ext ?_ ?_ rfl
  · show Function.update (Function.update h.objects h.next _) h.next
      (if (h.make x).uses h.next ≤ 1 then none else _) = h.objects
    rw [Function.update_idem, Function.update_eq_self_iff, huses, if_pos (Nat.le_refl 1)]
    exact (objects_next h).symm
  · show Function.update (Function.update h.uses h.next 1) h.next ((h.make x).uses h.next - 1) = h.uses
    rw [Function.update_idem, Function.update_eq_self_iff, huses]
    exact (h.unused _ (Nat.le_refl _)).symm

theorem modify_make (h : Shared α) (x : α) (f : α → α) :
    (h.make x).modify h.next f = h.make (f x) := by
  refine Shared.ext ?_ rfl rfl
  show Function.update (Function.update h.objects h.next _) h.next
    (Option.map f (Function.update h.objects h.next (some x) h.next)) = _
  rw [Function.update_idem, Function.update_self]
  rfl

theorem modify_acquire (h : Shared α) (id : Nat) (f : α → α) :
    (h.acquire id).modify id f = (h.modify id f).acquire id := rfl

theorem acquire_release_of_ne {id' : Nat} (hne : id' ≠ id) :
    (h.acquire id).release id' = (h.release id').acquire id := by
  have huses : Function.update h.uses id (if h.uses id = 0 then 0 else h.uses id + 1) id' =
      h.uses id' := Function.update_of_ne hne ..
  have huses' : Function.update h.uses id' (h.uses id' - 1) id = h.uses id :=
    Function.update_of_ne hne.symm ..
  refine Shared.ext ?_ ?_ rfl
  · show Function.update h.objects id' (if Function.update h.uses id _ id' ≤ 1 then none else _) =
      Function.update h.objects id' (if h.uses id' ≤ 1 then none else h.objects id')
    rw [huses]
    rfl
  · show Function.update (Function.update h.uses id _) id' (Function.update h.uses id _ id' - 1) =
      Function.update (Function.update h.uses id' _) id
        (if Function.update h.uses id' _ id = 0 then 0 else Function.update h.uses id' _ id + 1)
    rw [huses, huses', Function.update_comm hne.symm]

/-- What becomes of an object does not matter when its last pointer goes. -/
theorem release_modify (hlast : h.uses id ≤ 1) (f : α → α) :
    (h.modify id f).release id = h.release id := by
  refine Shared.ext ?_ rfl rfl
  show Function.update (Function.update h.objects id _) id (if h.uses id ≤ 1 then none else _) =
    Function.update h.objects id (if h.uses id ≤ 1 then none else h.objects id)
  rw [Function.update_idem, if_pos hlast, if_pos hlast]

end Shared

end CppSnippets.Lib
