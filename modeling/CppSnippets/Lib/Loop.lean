import Mathlib.Order.Basic

/-!
# Loops that may not end

A loop is the turn that it makes on a state: it goes on with another state, or leaves
with a result. A number of turns bounds a run; `Ends` says that some number is enough.
There is at most one result, and there is none where an invariant makes every turn go on.
-/
namespace CppSnippets.Lib.Loop

variable {σ ρ : Type*} (turn : σ → σ ⊕ ρ)

/-- What the loop leaves with in at most this many turns. -/
def run : Nat → σ → Option ρ
  | 0, _ => none
  | n + 1, s =>
    match turn s with
    | .inl t => run n t
    | .inr r => some r

/-- The loop leaves with this result. -/
def Ends (s : σ) (r : ρ) : Prop := ∃ n, run turn n s = some r

variable {turn} {s t : σ} {r : ρ}

theorem ends_exit (h : turn s = .inr r) : Ends turn s r := by
  refine ⟨1, ?_⟩
  rw [run, h]

/-- A turn that goes on does not change how the loop ends. -/
theorem ends_next (h : turn s = .inl t) : Ends turn s r ↔ Ends turn t r := by
  constructor
  · rintro ⟨n, hn⟩
    cases n with
    | zero => cases hn
    | succ n =>
      rw [run, h] at hn
      exact ⟨n, hn⟩
  · rintro ⟨n, hn⟩
    refine ⟨n + 1, ?_⟩
    rw [run, h]
    exact hn

theorem Ends.of_exit {r' : ρ} (h : turn s = .inr r) (he : Ends turn s r') : r' = r := by
  obtain ⟨n, hn⟩ := he
  cases n with
  | zero => cases hn
  | succ n =>
    rw [run, h] at hn
    exact (Option.some.inj hn).symm

theorem Ends.unique {r' : ρ} (h : Ends turn s r) (h' : Ends turn s r') : r = r' := by
  obtain ⟨n, hn⟩ := h
  induction n generalizing s with
  | zero => cases hn
  | succ n ih =>
    rw [run] at hn
    cases hs : turn s with
    | inl t =>
      rw [hs] at hn
      exact ih ((ends_next hs).mp h') hn
    | inr x =>
      rw [hs] at hn
      obtain rfl := Option.some.inj hn
      exact (h'.of_exit hs).symm

/-- A loop never ends if every turn from a state with the invariant goes on to one. -/
theorem not_ends {I : σ → Prop} (hgoes : ∀ s, I s → ∃ t, turn s = .inl t ∧ I t) (h : I s) :
    ¬Ends turn s r := by
  rintro ⟨n, hn⟩
  induction n generalizing s with
  | zero => cases hn
  | succ n ih =>
    obtain ⟨t, hs, ht⟩ := hgoes s h
    rw [run, hs] at hn
    exact ih ht hn

end CppSnippets.Lib.Loop
