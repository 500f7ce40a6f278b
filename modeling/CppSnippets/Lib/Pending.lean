import Mathlib.Data.List.Basic

/-!
# Operations that complete later

An operation is started, and its handler runs at some later time and in any order
with the handlers of other operations. Closing what an operation works on makes it
complete with `aborted`; any other operation succeeds or fails.
-/
namespace CppSnippets.Lib

variable {κ : Type*}

/-- The error code that a handler is called with. -/
inductive Outcome where
  | success
  /-- `operation_aborted`. -/
  | aborted
  | failed
  deriving DecidableEq

/-- An operation whose handler has not run yet. -/
structure Op (κ : Type*) where
  kind : κ
  aborted : Bool
  deriving DecidableEq

/-- How an operation can complete. -/
def Op.Ends (o : Op κ) (ec : Outcome) : Prop := ec = .aborted ↔ o.aborted = true

instance (o : Op κ) (ec : Outcome) : Decidable (o.Ends ec) := inferInstanceAs (Decidable (_ ↔ _))

theorem Op.ends_live {k : κ} {ec : Outcome} (h : ec ≠ .aborted) : Op.Ends ⟨k, false⟩ ec :=
  ⟨fun h' => absurd h' h, fun h' => absurd h' Bool.false_ne_true⟩

/-- The operations whose handlers have not run yet. -/
abbrev Pending (κ : Type*) := List (Op κ)

namespace Pending

def start (ps : Pending κ) (k : κ) : Pending κ := ps ++ [⟨k, false⟩]

/-- What works on `on` is aborted. -/
def close (ps : Pending κ) (on : κ → Bool) : Pending κ :=
  ps.map fun o => if on o.kind then { o with aborted := true } else o

/-- The operations of some kinds, in the order of their start. -/
def only (ps : Pending κ) (is : κ → Bool) : Pending κ := ps.filter fun o => is o.kind

variable {ps : Pending κ} {on is : κ → Bool} {k : κ} {o : Op κ}

theorem only_start_of (h : is k = true) : (ps.start k).only is = ps.only is ++ [⟨k, false⟩] := by
  rw [start, only, only, List.filter_append, List.filter_singleton, h]
  rfl

theorem only_start_not (h : is k = false) : (ps.start k).only is = ps.only is := by
  rw [start, only, only, List.filter_append, List.filter_singleton, h]
  exact List.append_nil _

/-- The first operation of its kind. -/
theorem only_start_first (h : is k = true) (hnil : ps.only is = []) :
    ((ps.start k).only is).length ≤ 1 := by
  rw [only_start_of h, hnil]
  exact Nat.le_refl 1

/-- Closing leaves what works on something else. -/
theorem only_close_not (h : ∀ k, is k = true → on k = false) : (ps.close on).only is = ps.only is := by
  induction ps with
  | nil => rfl
  | cons o ps ih =>
    rw [close, List.map_cons]
    cases hon : on o.kind with
    | false =>
      rw [if_neg Bool.false_ne_true, only, only, List.filter_cons, List.filter_cons]
      exact congrArg (fun l => if is o.kind = true then o :: l else l) ih
    | true =>
      have his : is o.kind = false := by
        by_contra hne
        rw [h o.kind (by simpa using hne)] at hon
        cases hon
      rw [if_pos rfl, only, only, List.filter_cons, List.filter_cons, his]
      exact ih

theorem only_close : (ps.close on).only is = (ps.only is).close on := by
  have hkind : ∀ o : Op κ, (if on o.kind = true then { o with aborted := true } else o).kind = o.kind := by
    intro o
    split <;> rfl
  rw [only, close, close, only, List.filter_map]
  congr 1
  apply List.filter_congr
  intro o _
  exact congrArg is (hkind o)

theorem only_close_length : ((ps.close on).only is).length = (ps.only is).length := by
  rw [only_close, close, List.length_map]

/-- The only operation of a kind stays the only one. -/
theorem only_close_singleton {a : Bool} (h : ps.only is = [⟨k, a⟩]) :
    ∃ a', (ps.close on).only is = [⟨k, a'⟩] := by
  rw [only_close, h]
  cases hon : on k with
  | true => exact ⟨true, by rw [close, List.map_singleton, if_pos hon]⟩
  | false => exact ⟨a, by rw [close, List.map_singleton, if_neg (by rw [hon]; exact Bool.false_ne_true)]⟩

theorem mem_of_mem_close {a : Bool} (h : ⟨k, a⟩ ∈ ps.close on) : ∃ a', ⟨k, a'⟩ ∈ ps := by
  obtain ⟨o, ho, heq⟩ := List.mem_map.mp h
  by_cases hon : on o.kind = true
  · rw [if_pos hon] at heq
    obtain ⟨rfl, _⟩ := Op.mk.inj heq
    exact ⟨o.aborted, ho⟩
  · rw [if_neg hon] at heq
    exact ⟨a, heq ▸ ho⟩

theorem only_close_nil (h : ps.only is = []) : (ps.close on).only is = [] := by
  rw [← List.length_eq_zero_iff, only_close_length, h]
  rfl

/-- Nothing that works on what is closed is left to succeed. -/
theorem not_mem_close (h : on k = true) : ⟨k, false⟩ ∉ ps.close on := by
  intro hmem
  obtain ⟨o, _, ho⟩ := List.mem_map.mp hmem
  by_cases hon : on o.kind = true
  · rw [if_pos hon] at ho
    cases ho
  · rw [if_neg hon] at ho
    rw [ho] at hon
    exact hon h

theorem mem_close (h : on o.kind = false) (ho : o ∈ ps) : o ∈ ps.close on :=
  List.mem_map.mpr ⟨o, ho, if_neg (by rw [h]; exact Bool.false_ne_true)⟩

theorem mem_only : o ∈ ps.only is ↔ o ∈ ps ∧ is o.kind = true := List.mem_filter

theorem not_mem_of_only_nil {a : Bool} (hnil : ps.only is = []) (h : is k = true) : ⟨k, a⟩ ∉ ps := by
  intro hmem
  have hin : (⟨k, a⟩ : Op κ) ∈ ps.only is := mem_only.mpr ⟨hmem, h⟩
  rw [hnil] at hin
  cases hin

theorem mem_start : o ∈ ps.start k ↔ o ∈ ps ∨ o = ⟨k, false⟩ := by
  rw [start, List.mem_append, List.mem_singleton]

variable [DecidableEq κ]

theorem only_erase : only (ps.erase o) is = (ps.only is).erase o := List.erase_filter.symm

/-- The handler of another kind of operation leaves the ones of a kind. -/
theorem only_erase_not (h : is o.kind = false) : only (ps.erase o) is = ps.only is := by
  rw [only_erase]
  apply List.erase_of_not_mem
  intro hmem
  rw [(mem_only.mp hmem).2] at h
  cases h

/-- The handler of the only operation of a kind. -/
theorem only_erase_last (hmem : o ∈ ps) (h : is o.kind = true) (hone : (ps.only is).length ≤ 1) :
    only (ps.erase o) is = [] := by
  have hin : o ∈ ps.only is := mem_only.mpr ⟨hmem, h⟩
  rw [only_erase, ← List.length_eq_zero_iff, List.length_erase_of_mem hin]
  omega

theorem count_start (ps : Pending κ) (k : κ) (o : Op κ) :
    (ps.start k).count o = ps.count o + if o = ⟨k, false⟩ then 1 else 0 := by
  rw [start, List.count_append, List.count_singleton]
  by_cases h : o = ⟨k, false⟩
  · rw [if_pos h, if_pos (beq_iff_eq.mpr h.symm)]
  · rw [if_neg h, if_neg (fun h' => h (beq_iff_eq.mp h').symm)]

theorem count_close (h : on k = true) : (ps.close on).count ⟨k, false⟩ = 0 :=
  List.count_eq_zero.mpr (not_mem_close h)

end Pending

end CppSnippets.Lib
