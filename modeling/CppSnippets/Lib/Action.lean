import Mathlib.Order.Defs.Unbundled

/-!
# Actions that change a state and may throw

An exception does not undo what was done before it: the state an action leaves
behind is there for every outcome. `exec` runs an action, one equation a
constructor says what it does; `Keeps R` says that the state left behind is
`R`-related to the state before, whatever the outcome, and `Avoids e` that the exception
`e` never comes out.
-/
namespace CppSnippets.Lib

abbrev Action (ε σ : Type) := ExceptT ε (StateM σ)

namespace Action

variable {ε σ α β : Type}

/-- The outcome, and the state left behind. -/
def exec (f : Action ε σ α) (s : σ) : Except ε α × σ := StateT.run (ExceptT.run f) s

/-- What a pure computation returns or throws. -/
def lift (r : Except ε α) : Action ε σ α := liftExcept r

@[simp] theorem exec_pure (a : α) (s : σ) : (pure a : Action ε σ α).exec s = (.ok a, s) := rfl

@[simp] theorem exec_get (s : σ) : (get : Action ε σ σ).exec s = (.ok s, s) := rfl

@[simp] theorem exec_modify (g : σ → σ) (s : σ) :
    (modify g : Action ε σ Unit).exec s = (.ok (), g s) := rfl

@[simp] theorem exec_lift (r : Except ε α) (s : σ) :
    (lift r : Action ε σ α).exec s = (r, s) := by
  cases r <;> rfl

theorem exec_bind (f : Action ε σ α) (g : α → Action ε σ β) (s : σ) :
    (f >>= g).exec s = match f.exec s with
      | (.ok a, t) => (g a).exec t
      | (.error e, t) => (.error e, t) := by
  change (ExceptT.bindCont g (f.exec s).1).run (f.exec s).2 = _
  rcases f.exec s with ⟨r, t⟩
  cases r <;> rfl

theorem exec_get_bind (g : σ → Action ε σ β) (s : σ) : (get >>= g).exec s = (g s).exec s := by
  rw [exec_bind, exec_get]

theorem exec_modify_bind (h : σ → σ) (g : Unit → Action ε σ β) (s : σ) :
    (modify h >>= g).exec s = (g ()).exec (h s) := by
  rw [exec_bind, exec_modify]

theorem exec_lift_bind (r : Except ε α) (g : α → Action ε σ β) (s : σ) :
    (lift r >>= g).exec s = match r with
      | .ok a => (g a).exec s
      | .error e => (.error e, s) := by
  rw [exec_bind, exec_lift]
  cases r <;> rfl

theorem exec_tryCatch (f : Action ε σ α) (g : ε → Action ε σ α) (s : σ) :
    (tryCatch f g).exec s = match f.exec s with
      | (.ok a, t) => (.ok a, t)
      | (.error e, t) => (g e).exec t := by
  change StateT.run (ExceptT.run (ExceptT.tryCatch f g)) s = _
  simp only [ExceptT.tryCatch, ExceptT.run, ExceptT.mk, StateT.run_bind]
  change StateT.run (match (f.exec s).1 with
    | .ok a => pure (.ok a)
    | .error e => g e) (f.exec s).2 = _
  rcases f.exec s with ⟨r, t⟩
  cases r <;> rfl

/-! ## What every outcome leaves behind -/

/-- Whatever comes out, the state left behind is related to the state before. -/
structure Keeps (R : σ → σ → Prop) (f : Action ε σ α) : Prop where
  after : ∀ s, R s (f.exec s).2

theorem keeps_modify {R : σ → σ → Prop} {g : σ → σ} (h : ∀ s, R s (g s)) :
    Keeps R (modify g : Action ε σ Unit) := ⟨h⟩

variable {R : σ → σ → Prop} [IsPreorder σ R]

theorem keeps_pure (a : α) : Keeps R (pure a : Action ε σ α) := ⟨fun s => refl_of R s⟩

theorem keeps_throw (e : ε) : Keeps R (throw e : Action ε σ α) := ⟨fun s => refl_of R s⟩

theorem keeps_get : Keeps R (get : Action ε σ σ) := ⟨fun s => refl_of R s⟩

theorem keeps_lift (r : Except ε α) : Keeps R (lift r : Action ε σ α) := by
  constructor
  intro s
  rw [exec_lift]
  exact refl_of R s

theorem keeps_bind {f : Action ε σ α} {g : α → Action ε σ β} (hf : Keeps R f)
    (hg : ∀ a, Keeps R (g a)) : Keeps R (f >>= g) := by
  constructor
  intro s
  have h := hf.after s
  rw [exec_bind]
  rcases hx : f.exec s with ⟨r, t⟩
  rw [hx] at h
  cases r with
  | error e => exact h
  | ok a => exact trans_of R h ((hg a).after t)

theorem keeps_tryCatch {f : Action ε σ α} {g : ε → Action ε σ α} (hf : Keeps R f)
    (hg : ∀ e, Keeps R (g e)) : Keeps R (tryCatch f g) := by
  constructor
  intro s
  have h := hf.after s
  rw [exec_tryCatch]
  rcases hx : f.exec s with ⟨r, t⟩
  rw [hx] at h
  cases r with
  | error e => exact trans_of R h ((hg e).after t)
  | ok a => exact h

/-! ## What never comes out -/

/-- No run ends with this exception. -/
structure Avoids (e : ε) (f : Action ε σ α) : Prop where
  never : ∀ s, (f.exec s).1 ≠ .error e

variable {e : ε}

/-- A sequence of pure computations throws what one of them throws. -/
theorem except_bind_ne {r : Except ε α} {g : α → Except ε β} (hr : r ≠ .error e)
    (hg : ∀ a, g a ≠ .error e) : r >>= g ≠ .error e := by
  cases r with
  | error d => exact fun h => hr (congrArg _ (Except.error.inj h))
  | ok a => exact hg a

theorem avoids_pure (a : α) : Avoids e (pure a : Action ε σ α) := ⟨fun _ => nofun⟩

theorem avoids_get : Avoids e (get : Action ε σ σ) := ⟨fun _ => nofun⟩

theorem avoids_modify (g : σ → σ) : Avoids e (modify g : Action ε σ Unit) := ⟨fun _ => nofun⟩

theorem avoids_throw {d : ε} (h : d ≠ e) : Avoids e (throw d : Action ε σ α) :=
  ⟨fun _ he => h (Except.error.inj he)⟩

theorem avoids_lift {r : Except ε α} (h : r ≠ .error e) : Avoids e (lift r : Action ε σ α) := by
  constructor
  intro s
  rw [exec_lift]
  exact h

theorem avoids_bind {f : Action ε σ α} {g : α → Action ε σ β} (hf : Avoids e f)
    (hg : ∀ a, Avoids e (g a)) : Avoids e (f >>= g) := by
  constructor
  intro s
  have h := hf.never s
  rw [exec_bind]
  rcases hx : f.exec s with ⟨r, t⟩
  rw [hx] at h
  cases r with
  | error d => exact fun he => h (congrArg _ (Except.error.inj he))
  | ok a => exact (hg a).never t

/-- A handler may throw again what it is given. -/
theorem avoids_tryCatch {f : Action ε σ α} {g : ε → Action ε σ α} (hf : Avoids e f)
    (hg : ∀ d, d ≠ e → Avoids e (g d)) : Avoids e (tryCatch f g) := by
  constructor
  intro s
  have h := hf.never s
  rw [exec_tryCatch]
  rcases hx : f.exec s with ⟨r, t⟩
  rw [hx] at h
  cases r with
  | error d => exact (hg d fun hd => h (congrArg _ hd)).never t
  | ok a => exact nofun

end Action
end CppSnippets.Lib
