import Mathlib.Data.List.Basic

/-!
# Labelled runs, invariants and simulations

A run is a finite sequence of labelled steps, recorded with its newest label
last. The rules below are the only inductions on runs: an invariant holds along
a run when each step keeps it, a guard restricts which steps a run may take, and
a relation that every step can follow carries whole runs from one system to
another.
-/
namespace CppSnippets.Lib

variable {σ τ α β : Type*}

/-- Finite runs of a labelled step relation from `s`. -/
inductive Run (Step : σ → α → σ → Prop) (s : σ) : List α → σ → Prop
  | nil : Run Step s [] s
  | snoc {as : List α} {t : σ} {a : α} {u : σ} :
      Run Step s as t → Step t a u → Run Step s (as ++ [a]) u

variable {Step : σ → α → σ → Prop}

theorem Run.single {s t : σ} {a : α} (h : Step s a t) : Run Step s [a] t := by
  have h0 : Run Step s [] s := .nil
  exact h0.snoc h

theorem Run.mono {Step' : σ → α → σ → Prop} (hstep : ∀ s a t, Step s a t → Step' s a t)
    {s t : σ} {as : List α} (h : Run Step s as t) : Run Step' s as t := by
  induction h with
  | nil => exact .nil
  | snoc _ hs ih => exact ih.snoc (hstep _ _ _ hs)

theorem Run.append {s t u : σ} {as bs : List α} (h : Run Step s as t) (k : Run Step t bs u) :
    Run Step s (as ++ bs) u := by
  induction k with
  | nil => simpa using h
  | snoc _ hstep ih =>
    rw [← List.append_assoc]
    exact ih.snoc hstep

/-- The step rule: what every step keeps, every run keeps. -/
theorem Run.invariant {P : σ → Prop} (hstep : ∀ s a t, P s → Step s a t → P t)
    {s t : σ} {as : List α} (h : Run Step s as t) (h0 : P s) : P t := by
  induction h with
  | nil => exact h0
  | snoc _ hs ih => exact hstep _ _ _ ih hs

/-- The step rule for what also depends on the labels of the run so far. -/
theorem Run.history {s : σ} {P : List α → σ → Prop} (h0 : P [] s)
    (hstep : ∀ as t a u, P as t → Step t a u → P (as ++ [a]) u)
    {t : σ} {as : List α} (h : Run Step s as t) : P as t := by
  induction h with
  | nil => exact h0
  | snoc _ hs ih => exact hstep _ _ _ _ ih hs

/-- The steps of a system that also meet a condition on the state before them. -/
def Guarded (Ok : σ → α → Prop) (Step : σ → α → σ → Prop) : σ → α → σ → Prop :=
  fun s a t => Ok s a ∧ Step s a t

theorem Run.of_guarded {Ok : σ → α → Prop} {s t : σ} {as : List α}
    (h : Run (Guarded Ok Step) s as t) : Run Step s as t := by
  induction h with
  | nil => exact .nil
  | snoc _ hs ih => exact ih.snoc hs.2

/-- A condition on labels alone may be read off the labels of the run. -/
theorem Run.guarded_of_labels {L : α → Prop} {s t : σ} {as : List α}
    (h : Run Step s as t) (hl : ∀ a ∈ as, L a) : Run (Guarded (fun _ a => L a) Step) s as t := by
  induction h with
  | nil => exact .nil
  | snoc _ hs ih =>
    refine (ih fun a ha => hl a (List.mem_append_left _ ha)).snoc ⟨?_, hs⟩
    exact hl _ (List.mem_append_right _ (List.mem_singleton.mpr rfl))

/-- A simulation carries every run of one system to a run of the other. -/
theorem Run.simulate {Abs : τ → β → τ → Prop} {R : σ → τ → Prop}
    (hstep : ∀ s a t x, R s x → Step s a t → ∃ bs y, Run Abs x bs y ∧ R t y)
    {s t : σ} {as : List α} (h : Run Step s as t) {x : τ} (hx : R s x) :
    ∃ bs y, Run Abs x bs y ∧ R t y := by
  induction h with
  | nil => exact ⟨[], x, .nil, hx⟩
  | snoc _ hs ih =>
    obtain ⟨bs, y, hrun, hy⟩ := ih
    obtain ⟨cs, z, hrun', hz⟩ := hstep _ _ _ _ hy hs
    exact ⟨bs ++ cs, z, hrun.append hrun', hz⟩

/-! ## Steps that are functions of the label -/

/-- The steps that are enabled, each with one result. -/
def Moves (Enabled : σ → α → Prop) (next : σ → α → σ) : σ → α → σ → Prop :=
  fun s a t => Enabled s a ∧ t = next s a

/-- Labels that can follow one another. -/
def Plays (Enabled : σ → α → Prop) (next : σ → α → σ) : σ → List α → Prop
  | _, [] => True
  | s, a :: as => Enabled s a ∧ Plays Enabled next (next s a) as

instance Plays.decidable {Enabled : σ → α → Prop} [∀ s a, Decidable (Enabled s a)]
    {next : σ → α → σ} : ∀ (s : σ) (as : List α), Decidable (Plays Enabled next s as)
  | _, [] => .isTrue trivial
  | s, a :: as =>
    have : Decidable (Plays Enabled next (next s a) as) := Plays.decidable _ as
    inferInstanceAs (Decidable (_ ∧ _))

theorem Run.plays {Enabled : σ → α → Prop} {next : σ → α → σ} {s : σ} {as : List α}
    (h : Plays Enabled next s as) : Run (Moves Enabled next) s as (as.foldl next s) := by
  induction as generalizing s with
  | nil => exact .nil
  | cons a as ih =>
    have hfirst : Moves Enabled next s a (next s a) := ⟨h.1, rfl⟩
    exact (Run.single hfirst).append (ih h.2)

theorem Run.plays_guarded {Ok Enabled : σ → α → Prop} {next : σ → α → σ} {s : σ} {as : List α}
    (h : Plays (fun s a => Ok s a ∧ Enabled s a) next s as) :
    Run (Guarded Ok (Moves Enabled next)) s as (as.foldl next s) := by
  induction as generalizing s with
  | nil => exact .nil
  | cons a as ih =>
    have hfirst : Guarded Ok (Moves Enabled next) s a (next s a) := ⟨h.1.1, h.1.2, rfl⟩
    exact (Run.single hfirst).append (ih h.2)

/-- Executing a list of labels, where each has one result or fails. -/
theorem Run.of_foldlM {ε : Type*} {next : σ → α → Except ε σ} {as : List α} {s t : σ}
    (h : as.foldlM next s = .ok t) : Run (fun s a t => next s a = .ok t) s as t := by
  induction as generalizing s with
  | nil =>
    cases h
    exact .nil
  | cons a as ih =>
    rw [List.foldlM_cons] at h
    cases hn : next s a with
    | error e => rw [hn] at h; cases h
    | ok u =>
      rw [hn] at h
      have hfirst : Run (fun s a t => next s a = .ok t) s [a] u := .single hn
      exact hfirst.append (ih h)

theorem Run.of_foldlM_guarded {ε : Type*} {Ok : σ → α → Prop} [∀ s a, Decidable (Ok s a)]
    {next : σ → α → Except ε σ} {e : ε} {as : List α} {s t : σ}
    (h : as.foldlM (fun s a => if Ok s a then next s a else .error e) s = .ok t) :
    Run (Guarded Ok (fun s a t => next s a = .ok t)) s as t := by
  refine (Run.of_foldlM h).mono fun s a t hs => ?_
  split at hs
  · rename_i hok
    exact ⟨hok, hs⟩
  · cases hs

theorem Run.of_foldlM_some {Ok : σ → α → Prop} [∀ s a, Decidable (Ok s a)]
    {next : σ → α → Option σ} {as : List α} {s t : σ}
    (h : as.foldlM (fun s a => if Ok s a then next s a else none) s = some t) :
    Run (Guarded Ok (fun s a t => next s a = some t)) s as t := by
  induction as generalizing s with
  | nil =>
    cases h
    exact .nil
  | cons a as ih =>
    rw [List.foldlM_cons] at h
    by_cases hok : Ok s a
    · rw [if_pos hok] at h
      obtain ⟨u, hu, hrest⟩ := Option.bind_eq_some_iff.mp h
      have hfirst : Run (Guarded Ok (fun s a t => next s a = some t)) s [a] u := .single ⟨hok, hu⟩
      exact hfirst.append (ih hrest)
    · rw [if_neg hok] at h
      cases h

end CppSnippets.Lib
