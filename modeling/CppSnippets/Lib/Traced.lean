import CppSnippets.Lib.Action

/-!
# Actions that leave a trace

An action whose state is the list of what it has done so far. `Returns` and
`Throws` say how an action ends whatever the trace before it, and follow its
sequence; `Meets` bounds what an action may do: a condition on the result and the
part of the trace that is its own, and one on what it throws.
-/
namespace CppSnippets.Lib

abbrev Traced (ε κ : Type) := Action ε (List κ)

namespace Traced

variable {ε κ α β : Type} {f : Traced ε κ α} {g : α → Traced ε κ β}

def emit (k : κ) : Traced ε κ Unit := modify (· ++ [k])

/-! ## How an action ends -/

/-- The action returns `a` and adds `ks` to the trace. -/
def Returns (f : Traced ε κ α) (a : α) (ks : List κ) : Prop :=
  ∀ tr, Action.exec f tr = (.ok a, tr ++ ks)

def Throws (f : Traced ε κ α) (e : ε) : Prop := ∀ tr, (Action.exec f tr).1 = .error e

theorem returns_pure (a : α) : Returns (pure a : Traced ε κ α) a [] := by
  intro tr
  rw [Action.exec_pure, List.append_nil]

theorem returns_emit (k : κ) : Returns (emit k : Traced ε κ Unit) () [k] := by
  intro tr
  exact Action.exec_modify _ tr

theorem Returns.bind {a : α} {b : β} {ks ls : List κ} (hf : Returns f a ks)
    (hg : Returns (g a) b ls) : Returns (f >>= g) b (ks ++ ls) := by
  intro tr
  rw [Action.exec_bind, hf tr]
  exact (hg (tr ++ ks)).trans (by rw [List.append_assoc])

theorem throws_throw (e : ε) : Throws (throw e : Traced ε κ α) e := fun _ => rfl

theorem Throws.bind {e : ε} (hf : Throws f e) : Throws (f >>= g) e := by
  intro tr
  have h := hf tr
  rw [Action.exec_bind]
  rcases hx : Action.exec f tr with ⟨r, tr'⟩
  rw [hx] at h
  obtain rfl : r = .error e := h
  rfl

theorem Returns.bind_throws {a : α} {ks : List κ} {e : ε} (hf : Returns f a ks)
    (hg : Throws (g a) e) : Throws (f >>= g) e := by
  intro tr
  rw [Action.exec_bind, hf tr]
  exact hg (tr ++ ks)

/-! ## What an action may do -/

structure Meets (f : Traced ε κ α) (good : α → List κ → Prop) (bad : ε → Prop) : Prop where
  ok : ∀ {tr a tr'}, Action.exec f tr = (.ok a, tr') → ∃ ks, tr' = tr ++ ks ∧ good a ks
  error : ∀ {tr e tr'}, Action.exec f tr = (.error e, tr') → bad e

variable {good : α → List κ → Prop} {bad : ε → Prop}

theorem meets_pure {a : α} (h : good a []) : Meets (pure a : Traced ε κ α) good bad := by
  constructor
  · intro tr b tr' hx
    cases hx
    exact ⟨[], (List.append_nil _).symm, h⟩
  · intro tr e tr' hx
    cases hx

theorem meets_throw {e : ε} (h : bad e) : Meets (throw e : Traced ε κ α) good bad := by
  constructor
  · intro tr b tr' hx
    cases hx
  · intro tr e' tr' hx
    cases hx
    exact h

theorem Returns.meets {a : α} {ks : List κ} (hf : Returns f a ks) (h : good a ks) :
    Meets f good bad := by
  constructor
  · intro tr b tr' hx
    rw [hf tr] at hx
    cases hx
    exact ⟨ks, rfl, h⟩
  · intro tr e tr' hx
    rw [hf tr] at hx
    cases hx

theorem Meets.mono {good' : α → List κ → Prop} {bad' : ε → Prop} (hf : Meets f good bad)
    (hgood : ∀ a ks, good a ks → good' a ks) (hbad : ∀ e, bad e → bad' e) :
    Meets f good' bad' := by
  constructor
  · intro tr a tr' hx
    obtain ⟨ks, htr, ha⟩ := hf.ok hx
    exact ⟨ks, htr, hgood a ks ha⟩
  · intro tr e tr' hx
    exact hbad e (hf.error hx)

theorem Meets.bind {good' : β → List κ → Prop} {bad' : ε → Prop} (hf : Meets f good bad')
    (hg : ∀ a ks, good a ks → Meets (g a) (fun b ls => good' b (ks ++ ls)) bad') :
    Meets (f >>= g) good' bad' := by
  constructor
  · intro tr b tr' hx
    rw [Action.exec_bind] at hx
    rcases hfx : Action.exec f tr with ⟨r, u⟩
    rw [hfx] at hx
    cases r with
    | error e => cases hx
    | ok a =>
      obtain ⟨ks, rfl, ha⟩ := hf.ok hfx
      obtain ⟨ls, rfl, hb⟩ := (hg a ks ha).ok hx
      exact ⟨ks ++ ls, List.append_assoc _ _ _, hb⟩
  · intro tr e tr' hx
    rw [Action.exec_bind] at hx
    rcases hfx : Action.exec f tr with ⟨r, u⟩
    rw [hfx] at hx
    cases r with
    | error e' =>
      cases hx
      exact hf.error hfx
    | ok a =>
      obtain ⟨ks, rfl, ha⟩ := hf.ok hfx
      exact (hg a ks ha).error hx

theorem Returns.bind_meets {good' : β → List κ → Prop} {a : α} {ks : List κ} (hf : Returns f a ks)
    (hg : Meets (g a) (fun b ls => good' b (ks ++ ls)) bad) : Meets (f >>= g) good' bad := by
  have hfa : Meets f (fun b ls => b = a ∧ ls = ks) bad := hf.meets ⟨rfl, rfl⟩
  refine hfa.bind fun b ls hb => ?_
  obtain ⟨rfl, rfl⟩ := hb
  exact hg

end Traced
end CppSnippets.Lib
