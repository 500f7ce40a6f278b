import Mathlib.Data.List.Basic

/-!
# Parsers and what they accept, and generators and what they append

A parser takes a value from the front of its input, or stops. It is described by
the texts of its values: it accepts an input as a value if and only if the input
begins with a text of the value, and it leaves what is behind. A generator appends a
text to its output under a condition, and fails otherwise. Both descriptions follow
the sequence of parsers and of generators.
-/
namespace CppSnippets.Lib

/-- A parser of values `α` on inputs of `τ`, which stops with `ε`. -/
abbrev Parser (ε τ : Type) := StateT (List τ) (Except ε)

variable {ε τ α β : Type}

/-- The parser accepts exactly the texts of the values. -/
def Parser.Accepts (p : Parser ε τ α) (Text : α → List τ → Prop) : Prop :=
  ∀ s a rest, p.run s = .ok (a, rest) ↔ ∃ used, Text a used ∧ s = used ++ rest

namespace Parser

/-- One text behind the other. -/
def Then (P : α → List τ → Prop) (Q : α → β → List τ → Prop) (b : β) (s : List τ) : Prop :=
  ∃ a u v, P a u ∧ Q a b v ∧ s = u ++ v

theorem accepts_pure (a : α) :
    Accepts (pure a : Parser ε τ α) fun b s => b = a ∧ s = [] := by
  intro s b rest
  rw [StateT.run_pure]
  constructor
  · intro h
    cases h
    exact ⟨[], ⟨rfl, rfl⟩, rfl⟩
  · rintro ⟨_, ⟨rfl, rfl⟩, rfl⟩
    rfl

theorem Accepts.bind {p : Parser ε τ α} {f : α → Parser ε τ β} {P : α → List τ → Prop}
    {Q : α → β → List τ → Prop} (hp : p.Accepts P) (hf : ∀ a, (f a).Accepts (Q a)) :
    Accepts (p >>= f) (Then P Q) := by
  intro s b rest
  rw [StateT.run_bind]
  constructor
  · intro h
    cases hrun : p.run s with
    | error e =>
      rw [hrun] at h
      cases h
    | ok r =>
      rw [hrun] at h
      obtain ⟨u, hu, rfl⟩ := (hp s r.1 r.2).mp hrun
      obtain ⟨v, hv, hrest⟩ := (hf r.1 r.2 b rest).mp h
      exact ⟨u ++ v, ⟨r.1, u, v, hu, hv, rfl⟩, by rw [hrest, List.append_assoc]⟩
  · rintro ⟨_, ⟨a, u, v, hu, hv, rfl⟩, rfl⟩
    rw [List.append_assoc, (hp _ a (v ++ rest)).mpr ⟨u, hu, rfl⟩]
    exact (hf a _ b rest).mpr ⟨v, hv, rfl⟩

theorem Accepts.congr {p : Parser ε τ α} {P Q : α → List τ → Prop} (hp : p.Accepts P)
    (h : ∀ a s, P a s ↔ Q a s) : p.Accepts Q := by
  intro s a rest
  rw [hp s a rest]
  constructor
  · rintro ⟨used, hused, heq⟩
    exact ⟨used, (h a used).mp hused, heq⟩
  · rintro ⟨used, hused, heq⟩
    exact ⟨used, (h a used).mpr hused, heq⟩

/-- The end of a record, where the fields that were read say what it is. -/
theorem Accepts.record {D : β → Prop} {b : β} (h : ∀ b', D b' ↔ b' = b) :
    Accepts (pure b : Parser ε τ β) fun b' s => D b' ∧ True ∧ s = [] :=
  (accepts_pure b).congr fun b' _ => by rw [h b', true_and]

/-- A field of a record, before the fields behind it. -/
theorem Accepts.field {p : Parser ε τ α} {f : α → Parser ε τ β} {P : α → Prop}
    {text : α → List τ} {D C : β → Prop} {rest : β → List τ} (get : β → α)
    (hp : p.Accepts fun a s => P a ∧ s = text a)
    (hf : ∀ a, (f a).Accepts fun b s => (D b ∧ get b = a) ∧ C b ∧ s = rest b) :
    Accepts (p >>= f) fun b s => D b ∧ (P (get b) ∧ C b) ∧ s = text (get b) ++ rest b := by
  refine (hp.bind hf).congr fun b s => ?_
  constructor
  · rintro ⟨a, _, _, ⟨hP, rfl⟩, ⟨⟨hD, rfl⟩, hC, rfl⟩, rfl⟩
    exact ⟨hD, ⟨hP, hC⟩, rfl⟩
  · rintro ⟨hD, ⟨hP, hC⟩, rfl⟩
    exact ⟨_, _, _, ⟨hP, rfl⟩, ⟨⟨hD, rfl⟩, hC, rfl⟩, rfl⟩

theorem Accepts.of_fields {p : Parser ε τ β} {C : β → Prop} {text : β → List τ}
    (h : p.Accepts fun b s => True ∧ C b ∧ s = text b) : p.Accepts fun b s => C b ∧ s = text b :=
  h.congr fun _ _ => ⟨And.right, fun h' => ⟨trivial, h'⟩⟩

end Parser

/-! ## Generators -/

variable {g g' : List τ → Option (List τ)} {c c' : Prop} {u u' : List τ}

/-- The generator appends the text, if the condition holds, and fails otherwise. -/
def Appends (g : List τ → Option (List τ)) (c : Prop) (text : List τ) : Prop :=
  ∀ out, (c → g out = some (out ++ text)) ∧ (¬c → g out = none)

namespace Appends

theorem start : Appends (some : List τ → Option (List τ)) True [] :=
  fun out => ⟨fun _ => congrArg some (List.append_nil out).symm, fun h => absurd trivial h⟩

theorem bind (h : Appends g c u) (h' : Appends g' c' u') :
    Appends (fun out => g out >>= g') (c ∧ c') (u ++ u') := by
  intro out
  constructor
  · rintro ⟨hc, hc'⟩
    show g out >>= g' = _
    rw [(h out).1 hc, ← List.append_assoc]
    exact (h' _).1 hc'
  · intro hnot
    show g out >>= g' = none
    by_cases hc : c
    · rw [(h out).1 hc]
      exact (h' _).2 fun hc' => hnot ⟨hc, hc'⟩
    · rw [(h out).2 hc]
      rfl

theorem congr (h : Appends g c u) (hc : c ↔ c') : Appends g c' u :=
  fun out => ⟨fun h' => (h out).1 (hc.mpr h'), fun h' => (h out).2 fun h'' => h' (hc.mp h'')⟩

theorem some_iff (h : Appends g c u) (out : List τ) {out' : List τ} :
    g out = some out' ↔ c ∧ out' = out ++ u := by
  constructor
  · intro hsome
    by_cases hc : c
    · rw [(h out).1 hc] at hsome
      exact ⟨hc, (Option.some.inj hsome).symm⟩
    · rw [(h out).2 hc] at hsome
      cases hsome
  · rintro ⟨hc, rfl⟩
    exact (h out).1 hc

end Appends

end CppSnippets.Lib
