/-
How the epoch watermark and the lease move.

`step_tenure` is the inversion over every section: the tenure is left
alone, an epoch some input carries is adopted, a lease is granted, or
the node is promoted. The watermark never falls.
-/
import Rostam.Pbisr.Proofs.Modifies

namespace Rostam.Pbisr

open Rostam.Lib

/-- The input carries epoch `E` for the receiver to adopt. -/
def Input.Carries : Input → Nat → Prop
  | .adoptEpoch E', E => E = E'
  | .snapshotFence E', E => E = E'
  | .receive msg _, E => E = msg.epoch
  | .receiveGroup msgs, E => ∃ m ok, (m, ok) ∈ msgs ∧ E = m.epoch
  | _, _ => False

namespace Engine

variable {e e' : Engine} {ev : Event}

theorem adoptEpoch_tenure (e : Engine) (E now : Nat) :
    (e.adoptEpoch E now).toTenure
      = { e.toTenure with epoch := max e.epoch E } := by
  unfold adoptEpoch
  split
  · next h =>
    rw [Nat.max_eq_right (Nat.le_of_lt h)]
    rfl
  · next h => rw [Nat.max_eq_left (Nat.le_of_not_lt h)]

theorem grantLease_tenure (e : Engine) (E expiry now : Nat) :
    (e.grantLease E expiry now).toTenure = if E < e.leaseEpoch then e.toTenure
        else ⟨max e.epoch E, E, expiry⟩ := by
  unfold grantLease
  split
  · rfl
  · rw [adoptEpoch_tenure]

theorem promote_tenure (e : Engine) (E expiry now : Nat) :
    (e.promote E expiry now).toTenure
      = if E ≤ e.epoch ∨ e.poisoned = true then e.toTenure
        else ⟨E, E, expiry⟩ := by
  unfold promote
  by_cases h1 : E ≤ e.epoch
  · rw [if_pos h1, if_pos (.inl h1)]
  · rw [if_neg h1]
    by_cases h2 : e.poisoned = true
    · rw [if_pos h2, if_pos (.inr h2)]
    · rw [if_neg h2, if_neg (by simp [h1, h2])]
      rfl

/-- A receive keeps the lease and adopts the frame's epoch or none. -/
theorem receiveLocked_tenure (e : Engine) (msg : ReplicateMsg) (ok : Bool)
    (now : Nat) :
    (e.receiveLocked msg ok now).1.toTenure = e.toTenure ∨ e.epoch < msg.epoch
        ∧ (e.receiveLocked msg ok now).1.toTenure
          = { e.toTenure with epoch := msg.epoch } := by
  unfold receiveLocked
  split
  · exact .inl rfl
  · split
    · exact .inl rfl
    · next hlt =>
      obtain ⟨lg, h⟩ :=
        receiveBody_modifies (e.adoptEpoch msg.epoch now) msg ok
      rw [h]
      show (e.adoptEpoch msg.epoch now).toTenure = _ ∨ _
        ∧ (e.adoptEpoch msg.epoch now).toTenure = _
      rw [adoptEpoch_tenure]
      by_cases hle : e.epoch < msg.epoch
      · rw [Nat.max_eq_right (Nat.le_of_lt hle)]
        exact .inr ⟨hle, rfl⟩
      · rw [Nat.max_eq_left (Nat.le_of_not_lt hle)]
        exact .inl rfl

/-- A group keeps the lease and ends at the epoch it found or at the
epoch of one of its frames. -/
theorem receiveGroup_tenure (e : Engine)
    (msgs : List (ReplicateMsg × Bool)) (now : Nat) :
    (e.receiveGroup msgs now).1.toTenure = e.toTenure
      ∨ ∃ m ok, (m, ok) ∈ msgs ∧ e.epoch < m.epoch
        ∧ (e.receiveGroup msgs now).1.toTenure
          = { e.toTenure with epoch := m.epoch } := by
  refine receiveGroup_ind (P := fun x => x.toTenure = e.toTenure
      ∨ ∃ m ok, (m, ok) ∈ msgs ∧ e.epoch < m.epoch
        ∧ x.toTenure = { e.toTenure with epoch := m.epoch })
    (fun x msg ok hmem hx => ?_) (.inl rfl)
  have hle : e.epoch ≤ x.epoch := by
    rcases hx with hx | ⟨m, ok', -, hlt, hx⟩
    · rw [hx]
    · rw [hx]
      exact Nat.le_of_lt hlt
  rcases receiveLocked_tenure x msg ok now with h | ⟨hlt, h⟩
  · rw [h]
    exact hx
  · refine .inr ⟨msg, ok, hmem, Nat.lt_of_le_of_lt hle hlt, ?_⟩
    rw [h]
    rcases hx with hx | ⟨m, ok', -, -, hx⟩
    · rw [hx]
    · rw [hx]

/-- How a section moves the tenure. -/
theorem step_tenure (h : e.step ev = some e') :
    e'.toTenure = e.toTenure
    ∨ (∃ E, ev.input.Carries E ∧ e.epoch < E
        ∧ e'.toTenure = { e.toTenure with epoch := E })
    ∨ (∃ E x, ev.input = .grantLease E x ∧ e.leaseEpoch ≤ E
        ∧ e'.toTenure = ⟨max e.epoch E, E, x⟩)
    ∨ ∃ E x, ev.input = .promote E x ∧ e.epoch < E ∧ e.poisoned = false
        ∧ e'.toTenure = ⟨E, E, x⟩ := by
  have hadopt : ∀ {E now : Nat}, ev.input.Carries E →
      e' = e.adoptEpoch E now → e'.toTenure = e.toTenure
        ∨ ∃ E, ev.input.Carries E ∧ e.epoch < E
          ∧ e'.toTenure = { e.toTenure with epoch := E } := by
    intro E now hE he
    by_cases hlt : e.epoch < E
    · refine .inr ⟨E, hE, hlt, ?_⟩
      rw [he, adoptEpoch_tenure, Nat.max_eq_right (Nat.le_of_lt hlt)]
    · refine .inl ?_
      rw [he, adoptEpoch_tenure, Nat.max_eq_left (Nat.le_of_not_lt hlt)]
  by_cases hw : Part.tenure ∈ ev.input.writes
  swap
  · exact .inl (step_agree h .tenure hw)
  obtain ⟨now, i⟩ := ev
  cases i <;> try (simp [Input.writes] at hw; done)
  case adoptEpoch E =>
      injection h with h
      exact (hadopt rfl h.symm).imp_right .inl
  case grantLease E expiry =>
      cases h
      rw [grantLease_tenure]
      split
      · exact .inl rfl
      · next hlt =>
        exact .inr (.inr (.inl ⟨E, expiry, rfl, Nat.le_of_not_lt hlt,
          rfl⟩))
  case promote E expiry =>
      cases h
      rw [promote_tenure]
      split
      · exact .inl rfl
      · next hno =>
        rw [not_or] at hno
        exact .inr (.inr (.inr ⟨E, expiry, rfl, Nat.lt_of_not_le hno.1,
          by simpa using hno.2, rfl⟩))
  case receive msg ok =>
      cases h
      rcases receiveLocked_tenure e msg ok now with h | ⟨hlt, h⟩
      · exact .inl h
      · exact .inr (.inl ⟨msg.epoch, rfl, hlt, h⟩)
  case receiveGroup msgs =>
      cases h
      rcases receiveGroup_tenure e msgs now with h | ⟨m, ok, hm, hlt, h⟩
      · exact .inl h
      · exact .inr (.inl ⟨m.epoch, ⟨m, ok, hm, rfl⟩, hlt, h⟩)
  case snapshotFence E =>
      injection h with h
      exact (hadopt rfl h.symm).imp_right .inl

/-- The watermark never falls. -/
theorem step_epoch_le (h : e.step ev = some e') : e.epoch ≤ e'.epoch := by
  rcases step_tenure h with h | ⟨E, -, hlt, h⟩ | ⟨E, x, -, -, h⟩
    | ⟨E, x, -, hlt, -, h⟩
  · rw [h]
  · rw [h]
    exact Nat.le_of_lt hlt
  · rw [h]
    exact Nat.le_max_left ..
  · rw [h]
    exact Nat.le_of_lt hlt

-- ======== the lease

variable {prim : Nat → NodeID}

/-- What the control plane promises of leases, `prim E` being the node
epoch `E` belongs to. -/
def Granted (prim : Nat → NodeID) (e : Engine) (ev : Event) : Prop :=
  match ev.input with
  | .grantLease E _ | .promote E _ => prim E = e.nodeID
  | _ => True

/-- A live lease is of an epoch that belongs to the node. -/
def Leased (prim : Nat → NodeID) (e : Engine) : Prop :=
  0 < e.leaseExpiry → prim e.leaseEpoch = e.nodeID

/-- The fence admits a proposal under a live lease of its epoch. -/
theorem leased_of_admitted {primary : NodeID} {isr : List NodeID}
    {minISR now : Nat} (h : e.proposeRefusal primary isr minISR now = none) :
    e.leaseEpoch = e.epoch ∧ 0 < e.leaseExpiry
      ∧ e.windowFullLocked = false := by
  unfold proposeRefusal at h
  repeat' split at h
  all_goals cases h
  exact ⟨by omega, by omega, by simpa using ‹¬ e.windowFullLocked = true›⟩

theorem step_leased (hl : Leased prim e) (hk : Granted prim e ev)
    (h : e.step ev = some e') : Leased prim e' := by
  have hid : e'.nodeID = e.nodeID := congrArg Identity.nodeID (step_identity h)
  unfold Leased
  rw [hid]
  rcases step_tenure h with ht | ⟨E, -, -, ht⟩ | ⟨E, x, hinp, -, ht⟩
    | ⟨E, x, hinp, -, -, ht⟩
  · rw [ht]
    exact hl
  · rw [ht]
    exact hl
  · unfold Granted at hk
    rw [hinp] at hk
    rw [ht]
    exact fun _ => hk
  · unfold Granted at hk
    rw [hinp] at hk
    rw [ht]
    exact fun _ => hk

end Engine

end Rostam.Pbisr
