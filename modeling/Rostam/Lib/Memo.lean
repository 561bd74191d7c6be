/-
Computations over a state that does not show in their answer: a memo
table, a cache.

`Answers inv m x` says that `m` answers `x` from every state that meets
the invariant, and leaves such a state. It composes as the computation
does, so a program whose only use of the state is a look-up that answers
the same with and without it is a pure function.
-/
import Rostam.Lib.Reader

namespace Rostam.Lib

variable {σ ε α β : Type}

/-- A computation that may fail and has a state; a failure keeps the
state. -/
abbrev Stateful (σ ε α : Type) := ExceptT ε (StateM σ) α

/-- Run it from a state. -/
def Stateful.from (m : Stateful σ ε α) (s : σ) : Except ε α × σ := m.run.run s

/-- A result that was computed without the state. -/
def Stateful.of (x : Except ε α) : Stateful σ ε α := ExceptT.mk (pure x)

/-- From every good state, the computation answers `x` and leaves a good
state. -/
def Answers (inv : σ → Prop) (m : Stateful σ ε α) (x : Except ε α) : Prop :=
  ∀ s, inv s → (m.from s).1 = x ∧ inv (m.from s).2

variable {inv : σ → Prop}

/-- A computation without a state answers what it is. -/
theorem Answers.of (x : Except ε α) :
    Answers inv (Stateful.of x) x := fun _ hs => ⟨rfl, hs⟩

theorem Answers.pure (a : α) :
    Answers inv (pure a : Stateful σ ε α) (.ok a) := fun _ hs => ⟨rfl, hs⟩

theorem Answers.throw (e : ε) :
    Answers inv (throw e : Stateful σ ε α) (.error e) :=
  fun _ hs => ⟨rfl, hs⟩

theorem Stateful.bind_from (m : Stateful σ ε α) (f : α → Stateful σ ε β)
    (s : σ) :
    (m >>= f).from s
      = ((m.from s).1.casesOn (fun e => (.error e, (m.from s).2))
        (fun a => (f a).from (m.from s).2)) := by
  show (StateT.bind m (ExceptT.bindCont f)) s = _
  unfold StateT.bind Stateful.from
  show ExceptT.bindCont f (m s).1 (m s).2 = _
  cases h : (m s).1 with
  | error e =>
    have hr : (m.run.run s).1 = .error e := h
    rw [hr]
    rfl
  | ok a =>
    have hr : (m.run.run s).1 = .ok a := h
    rw [hr]
    rfl

/-- Answers compose. -/
theorem Answers.bind {m : Stateful σ ε α} {x : Except ε α}
    {f : α → Stateful σ ε β} {g : α → Except ε β} (hm : Answers inv m x)
    (hf : ∀ a, Answers inv (f a) (g a)) :
    Answers inv (m >>= f) (x >>= g) := by
  intro s hs
  obtain ⟨hx, hs'⟩ := hm s hs
  rw [Stateful.bind_from, hx]
  cases x with
  | error e => exact ⟨rfl, hs'⟩
  | ok a => exact hf a _ hs'

end Rostam.Lib
