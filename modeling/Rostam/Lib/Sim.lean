/-
Two programs side by side.

A program reads and writes a state and may fail; what it has written by
then stays written. `Sim R A x y` relates a program over one state to a
program over another: wherever the two states are related by `R` and the
first succeeds, the second succeeds too, the states are related again,
and the results by `A`.

`Lifting` is what such a comparison has to respect for two instances of
one text to compare as soon as the text's primitives do: the text is
written over any monad, and a theorem about it is proved once for every
comparison.
-/
import Mathlib.Logic.Basic

namespace Rostam.Lib

variable {ε σ τ α β γ δ : Type}

/-- A program over a state, with failure. -/
abbrev Effect (ε σ α : Type) := ExceptT ε (StateM σ) α

namespace Effect

/-- Run to a result and a state. -/
def exec (x : Effect ε σ α) (s : σ) : Except ε α × σ := x.run.run s

@[simp]
theorem exec_pure (a : α) (s : σ) :
    exec (pure a : Effect ε σ α) s = (.ok a, s) := rfl

/-- An error ends a sequence. -/
theorem exec_bind (x : Effect ε σ α) (f : α → Effect ε σ β) (s : σ) :
    exec (x >>= f) s =
      match exec x s with
      | (.ok a, s') => exec (f a) s'
      | (.error e, s') => (.error e, s') := by
  unfold exec
  rw [ExceptT.run_bind, StateT.run_bind]
  cases hx : x.run.run s with
  | mk a s' =>
    cases a with
    | ok a => rfl
    | error e => rfl

/-- A sequence succeeds through its parts. -/
theorem exec_bind_ok {x : Effect ε σ α} {f : α → Effect ε σ β} {s s' : σ}
    {b : β} (h : exec (x >>= f) s = (.ok b, s')) :
    ∃ a u, exec x s = (.ok a, u) ∧ exec (f a) u = (.ok b, s') := by
  rw [exec_bind] at h
  cases hx : exec x s with
  | mk a u =>
    rw [hx] at h
    cases a with
    | ok a => exact ⟨a, u, rfl, h⟩
    | error e => cases h

/-- A step of the state with a result, as a program. -/
def ofStep (f : σ → σ × Except ε α) : Effect ε σ α :=
  ExceptT.mk fun s => ((f s).2, (f s).1)

@[simp]
theorem exec_ofStep (f : σ → σ × Except ε α) (s : σ) :
    exec (ofStep f) s = ((f s).2, (f s).1) := rfl

end Effect

/-- Where the states are related and `x` succeeds, so does `y`, and the
states are related again. -/
def Sim (R : σ → τ → Prop) (A : α → β → Prop) (x : Effect ε σ α)
    (y : Effect ε τ β) : Prop :=
  ∀ s t a s', R s t → x.exec s = (.ok a, s') →
    ∃ b t', y.exec t = (.ok b, t') ∧ R s' t' ∧ A a b

section Rules

variable {R : σ → τ → Prop} {A : α → β → Prop} {B : γ → δ → Prop}

theorem Sim.pure {a : α} {b : β} (h : A a b) :
    Sim R A (Pure.pure a : Effect ε σ α) (Pure.pure b) := by
  intro s t a' s' hR hx
  rw [Effect.exec_pure] at hx
  injection hx with ha hs
  cases ha
  subst hs
  exact ⟨b, t, Effect.exec_pure b t, hR, h⟩

/-- An error is simulated by anything. -/
theorem Sim.throw {e : ε} {y : Effect ε τ β} :
    Sim R A (MonadExcept.throw e : Effect ε σ α) y := by
  intro s t a s' _ hx
  injection hx with ha _
  cases ha

/-- Simulations compose. -/
theorem Sim.bind {x : Effect ε σ α} {y : Effect ε τ β}
    {f : α → Effect ε σ γ} {g : β → Effect ε τ δ}
    (hx : Sim R A x y) (hf : ∀ a b, A a b → Sim R B (f a) (g b)) :
    Sim R B (x >>= f) (y >>= g) := by
  intro s t c s' hR h
  obtain ⟨a, u, hxu, hfu⟩ := Effect.exec_bind_ok h
  obtain ⟨b, v, hyv, hRv, hab⟩ := hx s t a u hR hxu
  obtain ⟨d, t', hg, hR', hB⟩ := hf a b hab u v c s' hRv hfu
  refine ⟨d, t', ?_, hR', hB⟩
  rw [Effect.exec_bind, hyv]
  exact hg

end Rules

/-- A comparison of the programs of two monads by their results that the
building blocks of a text respect. -/
structure Lifting (ε : Type) (M N : Type → Type) [Monad M] [Monad N]
    [MonadExceptOf ε M] [MonadExceptOf ε N] where
  rel : {α : Type} → (α → α → Prop) → M α → N α → Prop
  pure : ∀ {α : Type} {A : α → α → Prop} {a b : α}, A a b →
    rel A (Pure.pure a) (Pure.pure b)
  bind : ∀ {α β : Type} {A : α → α → Prop} {B : β → β → Prop} {x : M α}
    {y : N α} {f : α → M β} {g : α → N β}, (∀ a, A a a) → rel A x y →
    (∀ a b, A a b → rel B (f a) (g b)) → rel B (x >>= f) (y >>= g)
  throw : ∀ {α : Type} {A : α → α → Prop} (e : ε),
    rel A (MonadExcept.throw e) (MonadExcept.throw e)

/-- Programs side by side compare. -/
def Sim.lifting (ε : Type) (R : σ → τ → Prop) :
    Lifting ε (Effect ε σ) (Effect ε τ) where
  rel := Sim R
  pure := Sim.pure
  bind := fun _ hx hf => hx.bind hf
  throw := fun _ => Sim.throw

end Rostam.Lib
