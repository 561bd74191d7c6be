/-
Runs of a labelled step function.

A component is a `step : σ → ι → Option σ`: `none` is a step that is
not enabled (or that brings the process down), so a run is a list of
labels each of which found its step. `Reach` collects the runs whose
every step also meets a side condition `K`, read on the state the step
leaves; with `K` trivially true it is plain reachability.

`exec` is the executable twin, for closing concrete runs by
evaluation. The two invariant rules are the only inductions over runs
in this development.
-/
import Mathlib.Algebra.Order.Ring.Nat
import Mathlib.Data.List.Induction
import Mathlib.Data.List.Infix

namespace Rostam.Lib

variable {σ ι : Type}

/-- The runs from `s₀` whose steps all meet `K`, with the labels taken
in order. -/
inductive Reach (step : σ → ι → Option σ) (K : σ → ι → Prop) (s₀ : σ) :
    List ι → σ → Prop
  | init : Reach step K s₀ [] s₀
  | step {tr : List ι} {s s' : σ} (i : ι) :
      Reach step K s₀ tr s → K s i → step s i = some s' →
      Reach step K s₀ (tr ++ [i]) s'

/-- Run a list of labels, failing on the first one that is disabled or
misses the check `k`. -/
def exec (step : σ → ι → Option σ) (k : σ → ι → Bool) : σ → List ι → Option σ
  | s, [] => some s
  | s, i :: tr =>
    if k s i then
      match step s i with
      | some s' => exec step k s' tr
      | none => none
    else none

/-- A step behind a guard was let through. -/
theorem guarded {p : Prop} {_ : Decidable p} {s s' : σ}
    (h : (if p then some s else none) = some s') : p ∧ s = s' := by
  rw [Option.ite_none_right_eq_some, Option.some_inj] at h
  exact h

theorem barred {p : Prop} {_ : Decidable p} {s s' : σ}
    (h : (if p then none else some s) = some s') : ¬ p ∧ s = s' := by
  rw [Option.ite_none_left_eq_some, Option.some_inj] at h
  exact h

/-- The side condition that asks nothing. -/
def Free : σ → ι → Prop := fun _ _ => True

section Rules

variable {step : σ → ι → Option σ} {K : σ → ι → Prop} {s₀ : σ}

variable {tr : List ι} {s : σ} {k : σ → ι → Bool}

/-- A predicate that holds at the start and survives every step taken
from a reachable state holds of every reachable state. -/
theorem Reach.invariant {P : List ι → σ → Prop} (h₀ : P [] s₀)
    (hstep : ∀ tr s i s', Reach step K s₀ tr s → P tr s → K s i →
      step s i = some s' → P (tr ++ [i]) s')
    (h : Reach step K s₀ tr s) : P tr s := by
  induction h with
  | init => exact h₀
  | step i hr hk hs ih => exact hstep _ _ i _ hr ih hk hs

/-- The state-only form of `Reach.invariant`. -/
theorem Reach.stateInvariant {P : σ → Prop} (h₀ : P s₀)
    (hstep : ∀ s i s', P s → K s i → step s i = some s' → P s')
    (h : Reach step K s₀ tr s) : P s :=
  h.invariant (P := fun _ s => P s) h₀
    fun _ s i s' _ hp hk hs => hstep s i s' hp hk hs

/-- Weakening the side condition keeps the run. -/
theorem Reach.mono {K' : σ → ι → Prop} (hK : ∀ s i, K s i → K' s i)
    (h : Reach step K s₀ tr s) :
    Reach step K' s₀ tr s := by
  induction h with
  | init => exact .init
  | step i _ hk hs ih => exact .step i ih (hK _ _ hk) hs

/-- A run extended by an executed suffix is a run. -/
theorem Reach.exec (hk : ∀ s i, k s i = true → K s i) :
    ∀ (suffix : List ι) {tr : List ι} {s s' : σ},
      Reach step K s₀ tr s → Lib.exec step k s suffix = some s' →
      Reach step K s₀ (tr ++ suffix) s' := by
  intro suffix
  induction suffix with
  | nil =>
    intro tr s s' hr he
    cases he
    rw [List.append_nil]
    exact hr
  | cons i rest ih =>
    intro tr s s' hr he
    unfold Lib.exec at he
    split at he
    · next hki =>
      split at he
      · next s₁ hs =>
        rw [List.append_cons]
        exact ih (.step i hr (hk s i hki) hs) he
      · cases he
    · cases he

/-- An executed list of labels is a run. -/
theorem exec_reach (hk : ∀ s i, k s i = true → K s i)
    (he : exec step k s₀ tr = some s) :
    Reach step K s₀ tr s := by
  have h := Reach.exec hk tr (.init : Reach step K s₀ [] s₀) he
  simpa using h

variable {P : σ → Prop} [DecidablePred P]

/-- A property decided on the outcome of an executed list of labels is a
run to a state that has it. -/
theorem exec_decide (hk : ∀ s i, k s i = true → K s i)
    (he : (exec step k s₀ tr).any (fun s => decide (P s)) = true) :
    ∃ s, Reach step K s₀ tr s ∧ P s := by
  obtain ⟨s, hs, hp⟩ := (Option.any_eq_true _ _).mp he
  exact ⟨s, exec_reach hk hs, of_decide_eq_true hp⟩

/-- The same, with nothing asked of the labels. -/
theorem exec_free
    (he : (exec step (fun _ _ => true) s₀ tr).any (fun s => decide (P s))
      = true) :
    ∃ s, Reach step Free s₀ tr s ∧ P s :=
  exec_decide (fun _ _ _ => trivial) he

end Rules

end Rostam.Lib
