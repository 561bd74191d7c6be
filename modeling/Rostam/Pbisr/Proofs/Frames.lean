/-
Where the frames an engine ships come from.

An engine holds frames in three places: the senders' FIFOs, the
submissions in flight, and the frame the proposer is handing out. A
frame enters them in two ways only — a registration builds it on the
frontier, or a flip replays it from the ring — and `step_holds` says so
once for every section, so a fact about all shipped frames needs just
those two cases.
-/
import Rostam.Pbisr.Proofs.Modifies

namespace Rostam.Pbisr

open Rostam.Lib

/-- Frame `m` is held for shipping. -/
def Outgoing.Holds (o : Outgoing) (m : ReplicateMsg) : Prop :=
  (∃ p s, o.peerQ p = some s ∧ m ∈ s.handed)
    ∨ (∃ p ms, (p, ms) ∈ o.outbox ∧ m ∈ ms)
    ∨ ∃ ps ls v, o.stage = .submitting m ps ls v

namespace Engine

variable {e e' : Engine} {ev : Event} {m msg : ReplicateMsg}

variable {p : NodeID}

-- ======== the moves one by one

/-- Detaching senders adds no frame. -/
theorem dropSenders_holds {keep : NodeID → Bool}
    (hm : (e.dropSenders keep).toOutgoing.Holds m) :
    e.toOutgoing.Holds m := by
  rcases hm with ⟨p, s, hp, hx⟩ | h | h
  · refine .inl ⟨p, s, ?_, hx⟩
    simp only [dropSenders] at hp
    split at hp
    · exact hp
    · cases hp
  · exact .inr (.inl h)
  · exact .inr (.inr h)

/-- Replacing a sender adds the frames of the new one. -/
theorem setSender_holds {s : Sender}
    {P : ReplicateMsg → Prop}
    (hs : ∀ x ∈ s.handed, e.toOutgoing.Holds x ∨ P x)
    (hm : (e.setSender p s).toOutgoing.Holds m) :
    e.toOutgoing.Holds m ∨ P m := by
  rcases hm with ⟨q, s', hq, hx⟩ | h | h
  · simp only [setSender] at hq
    split at hq
    · cases hq
      exact hs m hx
    · exact .inl (.inl ⟨q, s', hq, hx⟩)
  · exact .inl (.inr (.inl h))
  · exact .inl (.inr (.inr h))

/-- A submission adds its frames. -/
theorem post_holds {ms : List ReplicateMsg}
    (hm : (e.post p ms).toOutgoing.Holds m) :
    e.toOutgoing.Holds m ∨ m ∈ ms := by
  rcases hm with h | ⟨q, ms', hq, hx⟩ | h
  · exact .inl (.inl h)
  · rcases List.mem_append.1 hq with hq | hq
    · exact .inl (.inr (.inl ⟨q, ms', hq, hx⟩))
    · obtain ⟨-, rfl⟩ := Prod.mk.inj (List.mem_singleton.1 hq)
      exact .inr hx
  · exact .inl (.inr (.inr h))

/-- The frames of a sender with one more handed over. -/
private theorem hand_holds {s : Sender}
    (hs : ∀ x ∈ s.handed, e.toOutgoing.Holds x) :
    ∀ x ∈ (s.hand msg).handed, e.toOutgoing.Holds x ∨ x = msg := by
  intro x hx
  rcases List.mem_append.1 hx with hx | hx
  · exact .inl (hs x hx)
  · exact .inr (List.mem_singleton.1 hx)

/-- Handing the proposer's own frame to a peer. -/
theorem submitPeerLocked_holds {inlined : Bool}
    (h : e.submitPeerLocked p msg inlined = some e')
    (hm : e'.toOutgoing.Holds m) : e.toOutgoing.Holds m ∨ m = msg := by
  have hs : ∀ x ∈ ((e.peerQ p).getD ⟨none, [], 0⟩).handed,
      e.toOutgoing.Holds x := by
    intro x hx
    cases hp : e.peerQ p with
    | none => rw [hp] at hx; cases hx
    | some s => rw [hp] at hx; exact .inl ⟨p, s, hp, hx⟩
  unfold submitPeerLocked at h
  simp only at h
  repeat' split at h
  all_goals cases h
  · exact .inl hm
  · rcases post_holds hm with hm | hm
    · exact setSender_holds (P := (· = msg)) (by exact hand_holds hs) hm
    · exact .inr (List.mem_singleton.1 hm)
  · exact setSender_holds (hand_holds hs) hm

/-- Handing it to a learner, or abandoning the learner. -/
theorem submitLearnerLocked_holds
    (hm : (e.submitLearnerLocked p msg).toOutgoing.Holds m) :
    e.toOutgoing.Holds m ∨ m = msg := by
  unfold submitLearnerLocked at hm
  split at hm
  · exact .inl hm
  · split at hm
    · exact .inl hm
    · next s hs =>
      split at hm
      · exact setSender_holds (hand_holds
          fun x hx => .inl ⟨p, s, hs, hx⟩) hm
      · exact .inl (dropSenders_holds hm)

/-- The stage after a section, the queues as they were. -/
private theorem holds_stage {st : Stage}
    (hst : ∀ x ps ls v, st = .submitting x ps ls v → e.toOutgoing.Holds x)
    (hm : ({ e.toOutgoing with stage := st } : Outgoing).Holds m) :
    e.toOutgoing.Holds m := by
  rcases hm with h | h | ⟨ps, ls, v, h⟩
  · exact .inl h
  · exact .inr (.inl h)
  · exact hst m ps ls v h

/-- The proposer's own frame, handed on. -/
private theorem holds_handed {e₁ : Engine} {x : ReplicateMsg}
    {ps ls : List NodeID} {v : Bool} (hx : e.toOutgoing.Holds x)
    (hsub : ∀ {m}, e₁.toOutgoing.Holds m → e.toOutgoing.Holds m ∨ m = x)
    (hm : ({ e₁.toOutgoing with stage := .submitting x ps ls v } :
      Outgoing).Holds m) : e.toOutgoing.Holds m := by
  have hold : e₁.toOutgoing.Holds m → e.toOutgoing.Holds m := by
    intro h
    rcases hsub h with h | rfl
    · exact h
    · exact hx
  rcases hm with hm | hm | ⟨ps', ls', v', hm⟩
  · exact hold (.inl hm)
  · exact hold (.inr (.inl hm))
  · cases hm
    exact hx

theorem submitNext_holds {inlined : Bool}
    (h : e.submitNext inlined = some e') (hm : e'.toOutgoing.Holds m) :
    e.toOutgoing.Holds m := by
  unfold submitNext at h
  split at h
  · next x p ps ls v hst =>
    simp only [Option.map_eq_some_iff] at h
    obtain ⟨e₁, h₁, rfl⟩ := h
    exact holds_handed (.inr (.inr ⟨_, _, _, hst⟩))
      (submitPeerLocked_holds h₁) hm
  · next x l ls v hst =>
    cases h
    exact holds_handed (.inr (.inr ⟨_, _, _, hst⟩))
      (submitLearnerLocked_holds (p := l)) hm
  · cases h

theorem senderTake_holds {n : Nat}
    (h : e.senderTake p n = some e') (hm : e'.toOutgoing.Holds m) :
    e.toOutgoing.Holds m := by
  unfold senderTake at h
  split at h
  · next s hs =>
    simp only at h
    split at h
    · cases h
      have hall : ∀ x ∈ s.handed, e.toOutgoing.Holds x :=
        fun x hx => .inl ⟨p, s, hs, hx⟩
      rcases post_holds hm with hm | hm
      · exact (setSender_holds (P := fun _ => False)
          (by exact fun x hx => .inl (hall x hx)) hm).resolve_right id
      · exact hall m (List.mem_of_mem_drop (List.mem_of_mem_take hm))
    · cases h
  · cases h

-- ======== every step

/-- Where a frame held after a section comes from. -/
theorem step_holds (h : e.step ev = some e') (hm : e'.toOutgoing.Holds m) :
    e.toOutgoing.Holds m ∨ (∃ epoch isr data, ev.input = .register
          ∧ e.stage = .applied epoch isr data
          ∧ m = e.nextFrame epoch data)
      ∨ ∃ k delta, ringDeltaLocked e.backlog (k + 1) e.lastSeq
          = some delta ∧ m ∈ delta := by
  by_cases hw : Part.outgoing ∈ ev.input.writes
  swap
  · have hq : e'.toOutgoing = e.toOutgoing := step_agree h .outgoing hw
    rw [hq] at hm
    exact .inl hm
  obtain ⟨now, i⟩ := ev
  cases i <;> try (simp [Input.writes] at hw; done)
  case fence primary isr minISR data =>
      obtain ⟨hidle, rfl⟩ := locked_eq_some h
      left
      unfold fence at hm
      split at hm
      · exact hm
      · exact holds_stage (fun x ps ls v hx => by cases hx) hm
  case applyLocal ok =>
      simp only [step, applyLocal] at h
      repeat' split at h
      all_goals cases h
      all_goals exact .inl (holds_stage (fun x ps ls v hx => by cases hx) hm)
  case register =>
      obtain ⟨E, isr, d, pl, hst, -, rfl⟩ := register_cases h
      rcases hm with hm | hm | ⟨ps, ls, v, hm⟩
      · exact .inl (.inl hm)
      · exact .inl (.inr (.inl hm))
      · injection hm with hm
        exact .inr (.inl ⟨E, isr, d, rfl, hst, hm.symm⟩)
  case submitNext inlined => exact .inl (submitNext_holds h hm)
  case submitDone =>
      simp only [step, submitDone] at h
      repeat' split at h
      all_goals cases h
      all_goals exact .inl (holds_stage (fun x ps ls v hx => by cases hx) hm)
  case senderTake peer n => exact .inl (senderTake_holds h hm)
  case complete peer msgs res =>
      obtain ⟨pl, c, rfl⟩ := complete_modifies h
      rcases hm with hm | ⟨p, ms, hp, hx⟩ | hm
      · exact .inl (.inl hm)
      · exact .inl (.inr (.inl ⟨p, ms, List.mem_of_mem_erase hp, hx⟩))
      · exact .inl (.inr (.inr hm))
  case shrinkISR E newISR =>
      obtain ⟨hidle, rfl⟩ := locked_eq_some h
      left
      unfold shrinkISR at hm
      split at hm
      · exact hm
      · exact dropSenders_holds hm
  case flip =>
      rcases flipLearner_cases h with ⟨g, rfl⟩ | ⟨peer, n, se, E, k, delta,
        -, -, -, -, -, -, -, hd, -, rfl⟩
      · exact .inl hm
      · rcases setSender_holds (P := fun x => x ∈ delta)
          (fun x hx => .inr hx) hm with hm | hm
        · exact .inl hm
        · exact .inr (.inr ⟨k, delta, hd, hm⟩)
  case abortLearnerCatchup | reclaimOrphanLearners | teardownLearners =>
      obtain ⟨-, rfl⟩ := locked_eq_some h
      exact .inl (dropSenders_holds hm)

-- ======== the proposer

/-- How a section moves the proposer's program counter. -/
theorem step_stage (h : e.step ev = some e') :
    e'.stage = e.stage
    ∨ (∃ p isr n d, ev.input = .fence p isr n d ∧ e.stage = .idle
        ∧ e.proposeRefusal p isr n ev.now = none
        ∧ e'.stage = .fenced e.epoch isr d)
    ∨ (∃ E isr d, e.stage = .fenced E isr d ∧ (e'.stage = .applied E isr d
            ∧ e'.toLog = { e.toLog with fsm := e.fsm ++ [d] }
          ∨ e'.stage = .idle ∧ e'.toLog = e.toLog))
    ∨ (∃ E isr d ps ls v, ev.input = .register ∧ e.stage = .applied E isr d
        ∧ e'.stage = .submitting (e.nextFrame E d) ps ls v)
    ∨ ∃ m ps ls v, e.stage = .submitting m ps ls v ∧ (e'.stage = .idle
          ∨ ∃ ps' ls' v', e'.stage = .submitting m ps' ls' v') := by
  by_cases hw : Part.outgoing ∈ ev.input.writes
  swap
  · have hq : e'.toOutgoing = e.toOutgoing := step_agree h .outgoing hw
    exact .inl (congrArg Outgoing.stage hq)
  obtain ⟨now, i⟩ := ev
  cases i <;> try (simp [Input.writes] at hw; done)
  case fence primary isr minISR data =>
      obtain ⟨hidle, rfl⟩ := locked_eq_some h
      unfold fence
      split
      · exact .inl rfl
      · next hn =>
        exact .inr (.inl ⟨primary, isr, minISR, data, rfl, hidle, hn, rfl⟩)
  case applyLocal ok =>
      simp only [step, applyLocal] at h
      split at h
      · next E isr d hst =>
        refine .inr (.inr (.inl ⟨E, isr, d, hst, ?_⟩))
        split at h <;> cases h
        · exact .inl ⟨rfl, rfl⟩
        · exact .inr ⟨rfl, rfl⟩
      · cases h
  case register =>
      obtain ⟨E, isr, d, pl, hst, -, rfl⟩ := register_cases h
      exact .inr (.inr (.inr (.inl ⟨E, isr, d, _, _, _, rfl, hst, rfl⟩)))
  case submitNext inlined =>
      refine .inr (.inr (.inr (.inr ?_)))
      simp only [step, submitNext] at h
      split at h
      · next x p ps ls v hst =>
        simp only [Option.map_eq_some_iff] at h
        obtain ⟨e₁, -, rfl⟩ := h
        exact ⟨_, _, _, _, hst, .inr ⟨_, _, _, rfl⟩⟩
      · next x l ls v hst =>
        cases h
        exact ⟨_, _, _, _, hst, .inr ⟨_, _, _, rfl⟩⟩
      · cases h
  case submitDone =>
      refine .inr (.inr (.inr (.inr ?_)))
      simp only [step, submitDone] at h
      split at h
      · next x v hst =>
        refine ⟨_, _, _, _, hst, .inl ?_⟩
        split at h <;> cases h <;> rfl
      · cases h
  case senderTake peer n =>
      simp only [step, senderTake] at h
      repeat' split at h
      all_goals cases h
      exact .inl rfl
  case complete peer msgs res =>
      obtain ⟨pl, c, rfl⟩ := complete_modifies h
      exact .inl rfl
  case shrinkISR E newISR =>
      obtain ⟨-, rfl⟩ := locked_eq_some h
      unfold shrinkISR
      split <;> exact .inl rfl
  case flip =>
      rcases flipLearner_cases h with ⟨g, rfl⟩ | ⟨peer, n, se, E, k, delta,
        -, -, -, -, -, -, -, -, -, rfl⟩
      · exact .inl rfl
      · exact .inl rfl
  case abortLearnerCatchup | reclaimOrphanLearners | teardownLearners =>
      obtain ⟨-, rfl⟩ := locked_eq_some h
      exact .inl rfl

end Engine

end Rostam.Pbisr
