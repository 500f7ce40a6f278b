import Mathlib.Algebra.BigOperators.Group.Finset.Piecewise
import Mathlib.Data.Fintype.Basic
import Mathlib.Tactic.Abel

/-!
# The last values in a ring of slots

Each value goes where its number falls in the ring. How the sum over the slots changes
does not depend on what they hold.
-/
namespace CppSnippets.Lib

variable {M : Type} {n : Nat} {xs : List M} {slots : Fin n → M}

/-- The slots hold the last `n` values, and zero where there is none yet. -/
structure LastOf [Zero M] (xs : List M) (slots : Fin n → M) : Prop where
  recent : ∀ k (hk : k < xs.length), xs.length ≤ k + n →
    ∀ j : Fin n, j.val = k % n → slots j = xs[k]
  unfilled : ∀ j : Fin n, xs.length ≤ j.val → slots j = 0

namespace LastOf

variable [Zero M]

theorem zero : LastOf [] fun _ : Fin n => (0 : M) := by
  constructor
  · intro k hk
    cases hk
  · intro j _
    rfl

theorem put (h : LastOf xs slots) {i : Fin n} (hi : i.val = xs.length % n) (x : M) :
    LastOf (xs ++ [x]) (Function.update slots i x) := by
  constructor
  · intro k hk hle j hj
    rw [List.length_append, List.length_singleton] at hk hle
    by_cases hlast : k = xs.length
    · have hji : j = i := Fin.ext (by rw [hj, hi, hlast])
      rw [hji, Function.update_self, List.getElem_append_right hlast.ge]
      simp only [hlast, Nat.sub_self, List.getElem_cons_zero]
    · have hlt : k < xs.length := by omega
      -- less than a turn of the ring lies between two that share a slot
      have hji : j ≠ i := by
        rintro rfl
        have hmod : (xs.length - k) % n = 0 :=
          Nat.sub_mod_eq_zero_of_mod_eq (hi.symm.trans hj)
        rw [Nat.mod_eq_of_lt (by omega)] at hmod
        omega
      rw [Function.update_of_ne hji, List.getElem_append_left hlt]
      exact h.recent k hlt (by omega) j hj
  · intro j hj
    rw [List.length_append, List.length_singleton] at hj
    have hji : j ≠ i := by
      rintro rfl
      have hle := Nat.mod_le xs.length n
      omega
    rw [Function.update_of_ne hji]
    exact h.unfilled j (by omega)

theorem eq_zero_or_mem (h : LastOf xs slots) (j : Fin n) : slots j = 0 ∨ slots j ∈ xs := by
  by_cases hj : xs.length ≤ j.val
  · exact .inl (h.unfilled j hj)
  · have hn := j.isLt
    have hdiv := Nat.div_add_mod (xs.length - 1 - j.val) n
    have hmod := Nat.mod_lt (xs.length - 1 - j.val) (Nat.zero_lt_of_lt hn)
    -- the last of the numbers that fall on this slot
    have hk : j.val + n * ((xs.length - 1 - j.val) / n) < xs.length := by omega
    have hslot := h.recent _ hk (by omega) j
      (by rw [Nat.add_mul_mod_self_left, Nat.mod_eq_of_lt hn])
    exact .inr (hslot ▸ List.getElem_mem hk)

end LastOf

theorem sum_update [AddCommGroup M] (slots : Fin n → M) (i : Fin n) (x : M) :
    ∑ j, Function.update slots i x j = ∑ j, slots j + (x - slots i) := by
  rw [Finset.sum_update_of_mem (Finset.mem_univ i),
    Finset.sum_eq_add_sum_sdiff_singleton_of_mem (Finset.mem_univ i) slots]
  abel

end CppSnippets.Lib
