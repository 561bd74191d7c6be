/-
What an ack says about the frames it answers.

A receiver accepts a prefix of a submission and answers for it: with
`ok` for all of it, and on a group otherwise with the newest seq it took.
A sender takes such an answer as the attestation of single writes
(`Attests`); since a submission is uniform in epoch and dense in seqs,
each attested write is one of the accepted frames.
-/
import Rostam.Pbisr.Proofs.Commit
import Rostam.Pbisr.Proofs.Log

namespace Rostam.Pbisr

open Rostam.Lib Engine

-- ======== submissions

/-- `ack` covers the frame `f` of the submission it answers: all of it,
or the prefix a cumulative answer reaches. -/
def Acked (msgs : List ReplicateMsg) (ack : AckMsg) (f : ReplicateMsg) :
    Prop :=
  ack.ok = true ∨ 2 ≤ msgs.length ∧ f.seq ≤ ack.seq

/-- A submission counts up from its first frame, in one epoch. -/
theorem groupable_getElem? {m : ReplicateMsg} :
    ∀ {rest : List ReplicateMsg}, groupable (m :: rest) = true →
      ∀ {i : Nat} {f : ReplicateMsg}, (m :: rest)[i]? = some f →
        f.epoch = m.epoch ∧ f.seq = m.seq + i := by
  intro rest
  induction rest generalizing m with
  | nil =>
    intro _ i f hf
    cases i with
    | zero =>
      cases hf
      exact ⟨rfl, rfl⟩
    | succ i => simp at hf
  | cons m' rest ih =>
    intro hg i f hf
    simp only [groupable, Bool.and_eq_true, beq_iff_eq] at hg
    cases i with
    | zero =>
      cases hf
      exact ⟨rfl, rfl⟩
    | succ i =>
      obtain ⟨h1, h2⟩ := ih hg.2 (by simpa using hf)
      exact ⟨by omega, by omega⟩

/-- An attested write is a covered frame. -/
theorem Attests.acked {msgs : List ReplicateMsg} {ack : AckMsg}
    {epoch seq : Nat} (hg : groupable msgs = true)
    (h : Attests msgs ack epoch seq) :
    ∃ f ∈ msgs, f.epoch = epoch ∧ f.seq = seq ∧ Acked msgs ack f := by
  cases msgs with
  | nil => cases h
  | cons m tail =>
    cases tail with
    | nil =>
      obtain ⟨hok, -, -, h3, h4⟩ := h
      exact ⟨m, by simp, h3, h4, .inl hok⟩
    | cons m' rest =>
      obtain ⟨h1, -, h3, h4, h5⟩ := h
      -- the last frame's seq bounds the attested one
      have hlast : (m :: m' :: rest)[rest.length + 1]?
          = some ((m' :: rest).getLast (by simp)) := by
        rw [List.getElem?_cons_succ, List.getLast_eq_getElem,
          List.getElem?_eq_getElem (by simp)]
        simp
      have hls := (groupable_getElem? hg hlast).2
      have hi : seq - m.seq < (m :: m' :: rest).length := by
        simp only [List.length_cons]
        rcases h3 with ⟨-, h3⟩ | ⟨-, h3⟩ <;> omega
      have hf := List.getElem?_eq_getElem hi
      obtain ⟨he, hs⟩ := groupable_getElem? hg hf
      refine ⟨_, List.getElem_mem hi, by rw [he, h1], by omega, .inr ⟨?_, ?_⟩⟩
      · simp
      · omega

namespace Engine

variable {e e' : Engine} {ev : Event}

-- ======== the receiver

/-- The frames an answer covers were accepted. -/
theorem Accepts.mem {m : ReplicateMsg} {rest ms : List ReplicateMsg}
    {x : Engine × AckMsg} {f : ReplicateMsg}
    (h : e.Accepts (m :: rest) (m.seq - 1) x ms)
    (hg : groupable (m :: rest) = true) (h1 : 1 ≤ m.seq)
    (hf : f ∈ m :: rest) (ha : Acked (m :: rest) x.2 f) : f ∈ ms := by
  cases hok : x.2.ok with
  | true =>
    rw [h.full hok]
    exact hf
  | false =>
    obtain ⟨-, hle⟩ : 2 ≤ (m :: rest).length ∧ f.seq ≤ x.2.seq := by
      rcases ha with ha | ha
      · rw [hok] at ha
        cases ha
      · exact ha
    rw [h.partly hok] at hle
    obtain ⟨i, hi⟩ := List.getElem?_of_mem hf
    have hs := (groupable_getElem? hg hi).2
    obtain ⟨t, ht⟩ := h.front
    have hfront : ∀ j < ms.length, (m :: rest)[j]? = ms[j]? :=
      fun j hj => by rw [← ht, List.getElem?_append_left hj]
    cases hlast : ms.getLast? with
    | none =>
      unfold reached at hle
      rw [hlast] at hle
      simp only [Option.map_none, Option.getD_none] at hle
      omega
    | some y =>
      unfold reached at hle
      rw [hlast] at hle
      simp only [Option.map_some, Option.getD_some] at hle
      have hne : ms ≠ [] := by
        rintro rfl
        cases hlast
      have hpos : 0 < ms.length := List.length_pos_of_ne_nil hne
      have hy : (m :: rest)[ms.length - 1]? = some y := by
        rw [hfront _ (by omega), ← List.getLast?_eq_getElem?]
        exact hlast
      have hys := (groupable_getElem? hg hy).2
      have hlt : i < ms.length := by omega
      rw [hfront i hlt] at hi
      exact List.mem_of_getElem? hi

/-- A single frame's answer covers it only if it was accepted. -/
theorem receiveLocked_accepts {m f : ReplicateMsg} {ok : Bool} {now : Nat}
    (hf : f ∈ [m])
    (ha : Acked [m] (e.receiveLocked m ok now).2 f) :
    e.toLog.Receives [m] (e.receiveLocked m ok now).1.toLog
      ∧ e.Between (e.receiveLocked m ok now).1 m ∧ f = m := by
  rcases receiveLocked_log e m ok now with ⟨-, hno⟩
    | ⟨hx, hlo, hhi, hl, -⟩
  · rcases ha with ha | ⟨ha, -⟩
    · rw [hno] at ha
      cases ha
    · exact absurd ha (by simp)
  · refine ⟨?_, ⟨hlo, Nat.le_of_eq hhi.symm⟩, List.mem_singleton.1 hf⟩
    rw [hl]
    exact .cons hx (by simp) .nil

-- ======== the outbox

private theorem submitNext_outbox {p : NodeID} {ms : List ReplicateMsg}
    {inlined : Bool} (h : e.submitNext inlined = some e')
    (hm : (p, ms) ∈ e'.outbox) :
    (p, ms) ∈ e.outbox ∨ groupable ms = true := by
  unfold submitNext at h
  split at h
  · obtain ⟨e₁, he, rfl⟩ := Option.map_eq_some_iff.1 h
    have hm₁ : (p, ms) ∈ e₁.outbox := hm
    unfold submitPeerLocked at he
    split at he
    · cases he
      exact .inl hm₁
    · dsimp only at he
      split at he
      · cases he
        rcases List.mem_append.1 hm₁ with hm₁ | hm₁
        · exact .inl hm₁
        · obtain ⟨-, rfl⟩ := Prod.mk.inj (List.mem_singleton.1 hm₁)
          exact .inr rfl
      · split at he
        · cases he
          exact .inl hm₁
        · cases he
  · next msg l ls v _ =>
    cases h
    left
    have hm₁ : (p, ms) ∈ (e.submitLearnerLocked l msg).outbox := hm
    unfold submitLearnerLocked at hm₁
    repeat' split at hm₁
    all_goals exact hm₁
  · cases h

/-- A completion is of a submission the transport holds. -/
theorem complete_mem {peer : NodeID} {msgs : List ReplicateMsg}
    {res : Option AckMsg} {now : Nat}
    (h : e.complete peer msgs res now = some e') :
    (peer, msgs) ∈ e.outbox := by
  unfold complete at h
  split at h
  · assumption
  · cases h

/-- Whatever the transport holds is one submission. -/
theorem step_outbox {p : NodeID} {ms : List ReplicateMsg}
    (h : e.step ev = some e') (hm : (p, ms) ∈ e'.outbox) :
    (p, ms) ∈ e.outbox ∨ groupable ms = true := by
  by_cases hw : Part.outgoing ∈ ev.input.writes
  swap
  · have hq : e'.toOutgoing = e.toOutgoing := step_agree h .outgoing hw
    rw [show e'.outbox = e.outbox from congrArg Outgoing.outbox hq] at hm
    exact .inl hm
  obtain ⟨now, i⟩ := ev
  cases i <;> try (simp [Input.writes] at hw; done)
  case fence primary isr minISR data =>
      obtain ⟨-, rfl⟩ := locked_eq_some h
      obtain ⟨st, hst⟩ := fence_modifies e primary isr minISR data now
      rw [hst] at hm
      exact .inl hm
  case applyLocal ok =>
      obtain ⟨lg, st, rfl⟩ := applyLocal_modifies h
      exact .inl hm
  case register =>
      obtain ⟨E, isr, d, pl, -, -, rfl⟩ := register_cases h
      exact .inl hm
  case submitNext inlined => exact submitNext_outbox h hm
  case submitDone =>
      obtain ⟨pl, st, rfl⟩ := submitDone_modifies h
      exact .inl hm
  case senderTake peer n =>
      simp only [step, senderTake] at h
      split at h
      · split at h
        · next hc =>
          cases h
          rcases List.mem_append.1 hm with hm | hm
          · exact .inl hm
          · obtain ⟨-, rfl⟩ := Prod.mk.inj (List.mem_singleton.1 hm)
            exact .inr hc.2.2.1
        · cases h
      · cases h
  case complete peer msgs res =>
      obtain ⟨pl, c, rfl⟩ := complete_modifies h
      exact .inl (List.mem_of_mem_erase hm)
  case shrinkISR E newISR =>
      obtain ⟨-, rfl⟩ := locked_eq_some h
      unfold shrinkISR at hm
      split at hm <;> exact .inl hm
  case flip =>
      rcases flipLearner_cases h with ⟨g, rfl⟩ | ⟨peer, n, se, E, k, delta,
        -, -, -, -, -, -, -, -, -, rfl⟩
      · exact .inl hm
      · exact .inl hm
  case abortLearnerCatchup peer =>
      obtain ⟨-, rfl⟩ := locked_eq_some h
      exact .inl hm
  case reclaimOrphanLearners =>
      obtain ⟨-, rfl⟩ := locked_eq_some h
      exact .inl hm
  case teardownLearners =>
      obtain ⟨-, rfl⟩ := locked_eq_some h
      exact .inl hm

end Engine

end Rostam.Pbisr
