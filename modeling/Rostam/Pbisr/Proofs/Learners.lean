/-
The learners and the senders that serve them.

`step_learners` is the inversion over every section of the ship-set: it
loses members for a reason (`Gone`) or gains the one a flip installs.
`step_sender` is the inversion of one peer's FIFO: what it was handed
and the frame the proposer still owes it move together (`Carried`), or
a flip builds it afresh.
-/
import Rostam.Pbisr.Proofs.Commit

namespace Rostam.Pbisr

open Rostam.Lib

namespace Engine

variable {e e' : Engine} {ev : Event}

-- ======== the ship sets

theorem distinctPeers_nodup (self : NodeID) (isr : List NodeID) :
    (distinctPeers self isr).Nodup := by
  have h : ∀ (isr acc : List NodeID), acc.Nodup → (isr.foldl (fun peers m =>
        if m = self ∨ m ∈ peers then peers else peers ++ [m])
        acc).Nodup := by
    intro isr
    induction isr with
    | nil => exact fun acc ha => ha
    | cons m isr ih =>
      intro acc ha
      refine ih _ ?_
      show (if m = self ∨ m ∈ acc then acc else acc ++ [m]).Nodup
      split
      · exact ha
      · next hno =>
        rw [not_or] at hno
        refine List.nodup_append.2 ⟨ha, by simp, ?_⟩
        rintro a h1 b h2 rfl
        rw [List.mem_singleton.1 h2] at h1
        exact hno.2 h1
  exact h isr [] List.nodup_nil

theorem requiredPeers_nodup (e : Engine) (E : Nat) (isr : List NodeID) :
    (e.requiredPeers E isr).Nodup := by
  unfold requiredPeers
  split
  · exact (distinctPeers_nodup ..).filter _
  · exact distinctPeers_nodup ..

/-- A learner is served by exactly one of the two paths. -/
theorem mem_shipSets {M : NodeID} (hM : M ∈ e.learners)
    (ps : List NodeID) : M ∈ ps ∨ M ∈ e.learnerShipSetLocked ps := by
  by_cases hp : M ∈ ps
  · exact .inl hp
  · exact .inr (List.mem_filter.2 ⟨hM, by simpa using hp⟩)

/-- Nobody is shipped a frame twice. -/
theorem shipSets_nodup {ps : List NodeID} (hl : e.learners.Nodup)
    (hp : ps.Nodup) : (ps ++ e.learnerShipSetLocked ps).Nodup := by
  refine List.nodup_append.2 ⟨hp, hl.filter _, ?_⟩
  rintro p h1 q h2 rfl
  have := (List.mem_filter.1 h2).2
  simp only [decide_eq_true_eq] at this
  exact this h1

/-- Why a learner is no longer one: the engine shut down, its sender was
dropped with it, or the tenure ended. -/
def Gone (e : Engine) (ev : Event) (e' : Engine) (p : NodeID) : Prop :=
  e.closed = true ∨ e'.peerQ p = none ∨ e.epoch < e'.epoch
    ∨ ∃ s out, ev.input = .installSnapshot s out ∧ e.installAborts s = false

/-- Learners leave for a cause. -/
structure Leave (e : Engine) (ev : Event) (e' : Engine) : Prop where
  sublist : e'.learners.Sublist e.learners
  gone : ∀ p ∈ e.learners, p ∈ e'.learners ∨ e.Gone ev e' p

theorem Leave.of_eq (h : e'.toMembers = e.toMembers) : e.Leave ev e' := by
  have hl : e'.learners = e.learners := congrArg Members.learners h
  exact ⟨by rw [hl], fun p hp => .inl (by rw [hl]; exact hp)⟩

/-- A change of epoch clears the learners; without one they stay. -/
theorem Leave.of_epoch (hm : e'.toMembers = e.toMembers
      ∨ e.epoch < e'.epoch ∧ e'.learners = []) : e.Leave ev e' := by
  rcases hm with hm | ⟨hlt, hl⟩
  · exact .of_eq hm
  · exact ⟨by rw [hl]; exact List.nil_sublist _,
      fun p _ => .inr (.inr (.inr (.inl hlt)))⟩

/-- A new epoch has no learners. -/
theorem adoptEpoch_members (e : Engine) (E now : Nat) :
    (e.adoptEpoch E now).toMembers = e.toMembers
        ∧ (e.adoptEpoch E now).epoch = e.epoch
      ∨ e.epoch < (e.adoptEpoch E now).epoch
        ∧ (e.adoptEpoch E now).learners = [] := by
  unfold adoptEpoch
  split
  · next h => exact .inr ⟨h, rfl⟩
  · exact .inl ⟨rfl, rfl⟩

/-- A frame of a new epoch clears the learners too. -/
theorem receiveLocked_members (e : Engine) (msg : ReplicateMsg)
    (ok : Bool) (now : Nat) :
    (e.receiveLocked msg ok now).1.toMembers = e.toMembers
        ∧ (e.receiveLocked msg ok now).1.epoch = e.epoch
      ∨ e.epoch < (e.receiveLocked msg ok now).1.epoch
        ∧ (e.receiveLocked msg ok now).1.learners = [] := by
  unfold receiveLocked
  split
  · exact .inl ⟨rfl, rfl⟩
  · split
    · exact .inl ⟨rfl, rfl⟩
    · obtain ⟨lg, hb⟩ :=
        receiveBody_modifies (e.adoptEpoch msg.epoch now) msg ok
      rw [hb]
      exact adoptEpoch_members e msg.epoch now

theorem receiveGroup_members (e : Engine)
    (msgs : List (ReplicateMsg × Bool)) (now : Nat) :
    (e.receiveGroup msgs now).1.toMembers = e.toMembers
        ∧ (e.receiveGroup msgs now).1.epoch = e.epoch
      ∨ e.epoch < (e.receiveGroup msgs now).1.epoch
        ∧ (e.receiveGroup msgs now).1.learners = [] := by
  refine receiveGroup_ind (P := fun x => x.toMembers = e.toMembers
      ∧ x.epoch = e.epoch ∨ e.epoch < x.epoch ∧ x.learners = [])
    (fun x msg ok _ hx => ?_) (.inl ⟨rfl, rfl⟩)
  rcases receiveLocked_members x msg ok now with ⟨h1, h2⟩ | ⟨h1, h2⟩
  · rw [h2, show (x.receiveLocked msg ok now).1.learners = x.learners
      from congrArg Members.learners h1, h1]
    exact hx
  · have hle : e.epoch ≤ x.epoch := by
      rcases hx with hx | hx
      · exact Nat.le_of_eq hx.2.symm
      · exact Nat.le_of_lt hx.1
    exact .inr ⟨Nat.lt_of_le_of_lt hle h1, h2⟩

/-- Dropping the senders `keep` leaves out, with their learners. -/
theorem Leave.of_drop (keep : NodeID → Bool)
    (hq : e'.peerQ = (e.dropSenders keep).peerQ)
    (hsub : e'.learners.Sublist e.learners)
    (hkeep : ∀ p ∈ e.learners, p ∉ e'.learners → keep p = false) :
    e.Leave ev e' := by
  refine ⟨hsub, fun p hp => ?_⟩
  by_cases hmem : p ∈ e'.learners
  · exact .inl hmem
  · refine .inr ?_
    cases hcl : e.closed with
    | true => exact .inl hcl
    | false =>
      refine .inr (.inl ?_)
      rw [hq]
      simp [dropSenders, hcl, hkeep p hp hmem]

/-- A learner leaves with its sender. -/
theorem leave_submitLearner (p : NodeID) (m : ReplicateMsg) :
    e.Leave ev (e.submitLearnerLocked p m) := by
  unfold submitLearnerLocked
  split
  · exact .of_eq rfl
  · split
    · exact .of_eq rfl
    · split
      · exact .of_eq rfl
      · refine .of_drop (fun q => q ≠ p) rfl
          List.filter_sublist fun q hq hno => ?_
        by_cases hqp : q = p
        · simp [hqp]
        · exact absurd (List.mem_filter.2 ⟨hq, by simpa using hqp⟩) hno

/-- How a section moves the learners: they leave for a cause, or a flip
adds one. -/
theorem step_learners (h : e.step ev = some e') :
    e.Leave ev e'
      ∨ ∃ p, p ∉ e.learners ∧ e'.learners = e.learners ++ [p] := by
  by_cases hw : Part.members ∈ ev.input.writes
  swap
  · exact .inl (.of_eq (step_agree h .members hw))
  obtain ⟨now, i⟩ := ev
  cases i <;> try (simp [Input.writes] at hw; done)
  case submitNext inlined =>
      left
      simp only [step, submitNext] at h
      split at h
      · simp only [Option.map_eq_some_iff] at h
        obtain ⟨x, hx, rfl⟩ := h
        obtain ⟨og, rfl⟩ := submitPeerLocked_modifies hx
        exact .of_eq rfl
      · next l _ _ _ =>
        cases h
        obtain ⟨hsub, hgone⟩ := leave_submitLearner (e := e) l _
        exact ⟨hsub, hgone⟩
      · cases h
  case adoptEpoch E | snapshotFence E =>
      cases h
      exact .inl (.of_epoch ((adoptEpoch_members e E now).imp_left And.left))
  case grantLease E x =>
      cases h
      left
      unfold grantLease
      split
      · exact .of_eq rfl
      · exact .of_epoch ((adoptEpoch_members _ E now).imp_left And.left)
  case promote E x =>
      cases h
      left
      unfold promote
      split
      · exact .of_eq rfl
      · next hE =>
        split
        · exact .of_eq rfl
        · exact .of_epoch (.inr ⟨Nat.lt_of_not_le hE, rfl⟩)
  case receive msg ok =>
      cases h
      exact .inl (.of_epoch
        ((receiveLocked_members e msg ok now).imp_left And.left))
  case receiveGroup msgs =>
      cases h
      exact .inl (.of_epoch
        ((receiveGroup_members e msgs now).imp_left And.left))
  case shrinkISR E newISR =>
      obtain ⟨-, rfl⟩ := locked_eq_some h
      left
      unfold shrinkISR
      split
      · exact .of_eq rfl
      · exact ⟨List.Sublist.refl _, fun p hp => .inl hp⟩
  case growISR E newISR =>
      cases h
      left
      unfold growISR
      split
      · exact .of_eq rfl
      · exact ⟨List.Sublist.refl _, fun p hp => .inl hp⟩
  case flip =>
      rcases flipLearner_cases h with ⟨g, rfl⟩ | ⟨peer, n, se, E, k, delta,
        -, -, -, -, -, -, -, -, -, rfl⟩
      · exact .inl (.of_eq rfl)
      · by_cases hmem : peer ∈ e.learners
        · left
          have hl : (e.flipInstall peer E k delta).learners = e.learners :=
            if_pos hmem
          exact ⟨by rw [hl], fun p hp => .inl (by rw [hl]; exact hp)⟩
        · exact .inr ⟨peer, hmem, if_neg hmem⟩
  case abortLearnerCatchup peer =>
      obtain ⟨-, rfl⟩ := locked_eq_some h
      left
      refine .of_drop (fun q => q ≠ peer) rfl
        List.filter_sublist fun q hq hno => ?_
      by_cases hqp : q = peer
      · simp [hqp]
      · exact absurd (List.mem_filter.2 ⟨hq, by simpa using hqp⟩) hno
  case reclaimOrphanLearners =>
      obtain ⟨-, rfl⟩ := locked_eq_some h
      exact .inl ⟨List.Sublist.refl _, fun p hp => .inl hp⟩
  case teardownLearners =>
      obtain ⟨-, rfl⟩ := locked_eq_some h
      left
      refine .of_drop (fun p => p ∉ e.learners
        ∧ p ∉ e.learnerTeardown) rfl (List.nil_sublist _) fun p hp _ => ?_
      simp [hp]
  case installSnapshot s out =>
      obtain ⟨-, rfl⟩ := locked_eq_some h
      left
      by_cases hab : e.installAborts s = true
      · unfold installSnapshot
        rw [if_pos hab]
        exact .of_eq rfl
      · have hab' : e.installAborts s = false := by simpa using hab
        have hgone : ∀ p, e.Gone ⟨now, .installSnapshot s out⟩
            (e.installSnapshot s out) p :=
          fun p => .inr (.inr (.inr ⟨s, out, rfl, hab'⟩))
        refine ⟨?_, fun p _ => .inr (hgone p)⟩
        unfold installSnapshot
        rw [if_neg hab]
        cases out with
        | fsmErr g => exact List.Sublist.refl _
        | commitErr => exact List.nil_sublist _
        | ok => exact List.nil_sublist _

/-- Only a registration starts a submission, and only the submission
loop moves it. -/
theorem step_submitting {m : ReplicateMsg} {ps ls : List NodeID} {v : Bool}
    (h : e.step ev = some e') (hsub : ∀ b, ev.input ≠ .submitNext b)
    (hreg : ev.input ≠ .register)
    (hst : e'.stage = .submitting m ps ls v) :
    e.stage = .submitting m ps ls v := by
  rcases step_stage h with hs | ⟨p, i, n, d, -, -, -, hs⟩
    | ⟨E', i, d, -, ⟨hs, -⟩ | ⟨hs, -⟩⟩
    | ⟨E', i, d, qs, rs, w, hinp, -, -⟩
    | ⟨x, qs, rs, w, hx, hs | ⟨qs', rs', w', hs⟩⟩
  · rw [← hs]
    exact hst
  · rw [hs] at hst
    cases hst
  · rw [hs] at hst
    cases hst
  · rw [hs] at hst
    cases hst
  · exact absurd hinp hreg
  · rw [hs] at hst
    cases hst
  · by_cases hw : Part.outgoing ∈ ev.input.writes
    swap
    · have hq : e'.toOutgoing = e.toOutgoing := step_agree h .outgoing hw
      rw [← show e'.stage = e.stage from congrArg Outgoing.stage hq]
      exact hst
    obtain ⟨now, i⟩ := ev
    cases i <;> try (simp [Input.writes] at hw; done)
    case submitNext b => exact absurd rfl (hsub b)
    case register => exact absurd rfl hreg
    case submitDone =>
        simp only [step, submitDone] at h
        repeat' split at h
        all_goals cases h
        all_goals cases hst
    case senderTake peer n =>
        simp only [step, senderTake] at h
        repeat' split at h
        all_goals cases h
        exact hst
    case complete peer msgs res =>
        obtain ⟨pl, c, rfl⟩ := complete_modifies h
        exact hst
    case applyLocal ok =>
        simp only [step, applyLocal, hx] at h
        cases h
    case flip =>
        simp only [step, flipLearner, hx] at h
        cases h
    -- The rest need the proposer outside `writeMu`.
    all_goals
      have hidle := (locked_eq_some h).1
      rw [hx] at hidle
      cases hidle

/-- Neither ship set holds anybody twice. -/
structure Sets (e : Engine) : Prop where
  learners : e.learners.Nodup
  stage : ∀ (m : ReplicateMsg) (ps ls : List NodeID) (v : Bool),
    e.stage = .submitting m ps ls v → (ps ++ ls).Nodup

/-- No section puts anybody in a ship set twice. -/
theorem step_sets (hs : e.Sets) (h : e.step ev = some e') : e'.Sets where
  learners := by
    rcases step_learners h with hl | ⟨p, hp, hl⟩
    · exact hs.learners.sublist hl.sublist
    · rw [hl]
      refine List.nodup_append.2 ⟨hs.learners, by simp, ?_⟩
      rintro a h1 b h2 rfl
      rw [List.mem_singleton.1 h2] at h1
      exact hp h1
  stage := by
    intro m ps ls v hst
    by_cases hsub : ∃ inlined, ev.input = .submitNext inlined
    · obtain ⟨now, i⟩ := ev
      obtain ⟨inlined, rfl⟩ : ∃ inlined, i = .submitNext inlined := hsub
      simp only [step, submitNext] at h
      split at h
      · next x p qs rs w hst' =>
        simp only [Option.map_eq_some_iff] at h
        obtain ⟨e₁, -, rfl⟩ := h
        injection hst with h1 h2 h3 h4
        subst h2 h3
        exact (List.nodup_cons.1 (hs.stage _ _ _ _ hst')).2
      · next x l rs w hst' =>
        cases h
        injection hst with h1 h2 h3 h4
        subst h2 h3
        exact (List.nodup_cons.1 (hs.stage _ _ _ _ hst')).2
      · cases h
    by_cases hreg : ev.input = .register
    · obtain ⟨now, i⟩ := ev
      have hi : i = .register := hreg
      subst hi
      obtain ⟨E, isr, d, pl, -, -, rfl⟩ := register_cases h
      injection hst with h1 h2 h3 h4
      subst h2 h3
      exact shipSets_nodup hs.learners (requiredPeers_nodup ..)
    · -- Every other section keeps a submission as it found it.
      have hst' := step_submitting h (by simpa using hsub) hreg hst
      exact hs.stage _ _ _ _ hst'

-- ======== the sender

/-- The frame the proposer still owes `M`: registered, and `M` not
reached yet. A closed engine owes nothing. -/
def owed (e : Engine) (M : NodeID) : List ReplicateMsg :=
  match e.stage with
  | .submitting m ps ls _ =>
    if e.closed = false ∧ M ∈ ps ++ ls then [m] else []
  | _ => []

variable {M p : NodeID} {s s' : Sender} {m : ReplicateMsg}

variable {g : Catchup}

/-- Only a submission owes anything. -/
theorem owed_of_stage (h : ∀ m ps ls v, e.stage ≠ .submitting m ps ls v) :
    e.owed M = [] := by
  unfold owed
  split
  · next m ps ls v hst => exact absurd hst (h m ps ls v)
  · rfl

theorem owed_idle (h : e.stage = .idle) : e.owed M = [] :=
  owed_of_stage fun m ps ls v => by
    rw [h]
    simp

theorem owed_submitting {ps ls : List NodeID} {v : Bool}
    (h : e.stage = .submitting m ps ls v) :
    e.owed M = if e.closed = false ∧ M ∈ ps ++ ls then [m] else [] := by
  unfold owed
  rw [h]

theorem owed_congr (h1 : e'.stage = e.stage) (h2 : e'.closed = e.closed) :
    e'.owed M = e.owed M := by
  unfold owed
  rw [h1, h2]

/-- What serving one peer does to one sender. -/
def Served (e : Engine) (p : NodeID) (m : ReplicateMsg) (M : NodeID)
    (s' : Sender) : Prop :=
  (e.closed = true ∨ M ≠ p) ∧ e.peerQ M = some s' ∨ e.closed = false ∧ M = p
      ∧ s'.base = ((e.peerQ M).getD ⟨none, [], 0⟩).base
      ∧ s'.handed = ((e.peerQ M).getD ⟨none, [], 0⟩).handed ++ [m]

theorem setSender_self (e : Engine) (p : NodeID) (s : Sender) :
    (e.setSender p s).peerQ p = some s := if_pos rfl

theorem setSender_of_ne (e : Engine) (s : Sender) (h : M ≠ p) :
    (e.setSender p s).peerQ M = e.peerQ M := if_neg h

/-- A submission to `p` touches `p`'s sender only. -/
theorem submitPeer_sender {inlined : Bool}
    (h : e.submitPeerLocked p m inlined = some e')
    (hq : e'.peerQ M = some s') : e.Served p m M s' := by
  unfold submitPeerLocked at h
  split at h
  · next hcl =>
    cases h
    exact .inl ⟨.inl hcl, hq⟩
  · next hcl =>
    have hcl' : e.closed = false := by simpa using hcl
    by_cases hM : M = p
    · subst hM
      refine .inr ⟨hcl', rfl, ?_⟩
      simp only at h
      repeat' split at h
      all_goals try cases h
      · have hq' : (e.setSender M _).peerQ M = some s' := hq
        rw [setSender_self] at hq'
        injection hq' with hq'
        subst hq'
        exact ⟨rfl, rfl⟩
      · rw [setSender_self] at hq
        cases hq
        exact ⟨rfl, rfl⟩
    · refine .inl ⟨.inr hM, ?_⟩
      simp only at h
      repeat' split at h
      all_goals try cases h
      · have hq' : (e.setSender p _).peerQ M = some s' := hq
        rw [setSender_of_ne _ _ hM] at hq'
        exact hq'
      · rw [setSender_of_ne _ _ hM] at hq
        exact hq

/-- A sender that is kept is as it was. -/
theorem dropSenders_some {keep : NodeID → Bool}
    (hq : (e.dropSenders keep).peerQ M = some s') :
    e.peerQ M = some s' := by
  simp only [dropSenders] at hq
  split at hq
  · exact hq
  · cases hq

theorem submitLearner_sender
    (hq : (e.submitLearnerLocked p m).peerQ M = some s') :
    e.Served p m M s' := by
  unfold submitLearnerLocked at hq
  split at hq
  · next hcl => exact .inl ⟨.inl hcl, hq⟩
  · next hcl =>
    have hcl' : e.closed = false := by simpa using hcl
    by_cases hM : M = p
    · subst hM
      refine .inr ⟨hcl', rfl, ?_⟩
      split at hq
      · next hn =>
        rw [hn] at hq
        cases hq
      · next s hs =>
        rw [hs]
        split at hq
        · rw [setSender_self] at hq
          cases hq
          exact ⟨rfl, rfl⟩
        · simp [dropPeerLocked, dropSenders, hcl'] at hq
    · refine .inl ⟨.inr hM, ?_⟩
      split at hq
      · exact hq
      · split at hq
        · rw [setSender_of_ne _ _ hM] at hq
          exact hq
        · exact dropSenders_some hq

/-- A sender one section later: what it holds and what it is owed make
up the same frames, except that a registration owes it one more. -/
def Carried (e : Engine) (ev : Event) (e' : Engine) (M : NodeID)
    (s' : Sender) : Prop :=
  s'.base = none ∨ ∃ s, e.peerQ M = some s ∧ s'.base = s.base
      ∧ (ev.input = .register ∧ s' = s
        ∨ s'.handed ++ e'.owed M = s.handed ++ e.owed M)

theorem Carried.same (hq : e.peerQ M = some s')
    (h1 : e'.stage = e.stage) (h2 : e'.closed = e.closed) :
    e.Carried ev e' M s' :=
  .inr ⟨s', hq, rfl, .inr (by rw [owed_congr h1 h2])⟩

/-- Sections around an idle proposer owe nothing on either side. -/
theorem Carried.unowed (hq : e.peerQ M = some s') (h1 : e.owed M = [])
    (h2 : e'.owed M = []) : e.Carried ev e' M s' :=
  .inr ⟨s', hq, rfl, .inr (by rw [h1, h2])⟩

/-- One turn of the submission loop: `M` is served, or still owed. -/
theorem Carried.served {ps ls ps' ls' : List NodeID} {v v' : Bool}
    (hst : e.stage = .submitting m ps ls v)
    (hst' : e'.stage = .submitting m ps' ls' v')
    (hcl : e'.closed = e.closed)
    (hcons : ps ++ ls = p :: (ps' ++ ls')) (hno : p ∉ ps' ++ ls')
    (hs : e.Served p m M s') : e.Carried ev e' M s' := by
  have h1 := owed_submitting (M := M) hst
  have h2 := owed_submitting (M := M) hst'
  rw [hcl] at h2
  rw [hcons] at h1
  rcases hs with ⟨hc | hM, hq⟩ | ⟨hc, rfl, hb, hh⟩
  · refine .unowed hq ?_ ?_
    · rw [h1, if_neg (by simp [hc])]
    · rw [h2, if_neg (by simp [hc])]
  · refine .inr ⟨s', hq, rfl, .inr ?_⟩
    rw [h1, h2]
    simp only [List.mem_cons, hM, false_or]
  · cases hq : e.peerQ M with
    | none =>
      rw [hq] at hb
      exact .inl hb
    | some s =>
      rw [hq] at hb hh
      refine .inr ⟨s, hq, hb, .inr ?_⟩
      rw [hh, h1, h2, if_neg (fun hx => hno hx.2),
        if_pos ⟨hc, List.mem_cons_self ..⟩, List.append_nil]
      rfl

/-- The submission loop hands over what it owes. -/
theorem submitNext_sender {inlined : Bool} (hs : e.Sets)
    (h : e.submitNext inlined = some e') (hq : e'.peerQ M = some s') :
    e.Carried ev e' M s' := by
  unfold submitNext at h
  split at h
  · next x p ps ls v hst =>
    simp only [Option.map_eq_some_iff] at h
    obtain ⟨e₁, h₁, rfl⟩ := h
    obtain ⟨og, hog⟩ := submitPeerLocked_modifies h₁
    exact .served hst rfl (by rw [hog]) rfl
      (List.nodup_cons.1 (hs.stage _ _ _ _ hst)).1
      (submitPeer_sender h₁ hq)
  · next x l ls v hst =>
    cases h
    obtain ⟨og, mb, hog⟩ := submitLearnerLocked_modifies e l x
    refine .served hst rfl ?_ rfl (List.nodup_cons.1 (hs.stage _ _ _ _ hst)).1
      (submitLearner_sender hq)
    show (e.submitLearnerLocked l x).closed = _
    rw [hog]
  · cases h

/-- Where a sender comes from: a flip built it, or it was carried over. -/
theorem step_sender (hs : e.Sets) (h : e.step ev = some e')
    (hq : e'.peerQ M = some s') :
    e.Carried ev e' M s'
      ∨ ∃ E k delta, ev.input = .flip ∧ s' = ⟨some (E, k), delta, 0⟩
        ∧ e' = e.flipInstall M E k delta ∧ e.stage = .idle
        ∧ (∃ n se, e.grow = some ⟨M, n, se, .flip E k⟩)
        ∧ e.epoch = E ∧ e.leaseEpoch = E ∧ ev.now < e.leaseExpiry
        ∧ ringDeltaLocked e.backlog (k + 1) e.lastSeq = some delta
        ∧ delta.length = u64Sub e.lastSeq k := by
  by_cases hw : Part.outgoing ∈ ev.input.writes
  swap
  · left
    have ho : e'.toOutgoing = e.toOutgoing := step_agree h .outgoing hw
    have hst : e'.stage = e.stage := congrArg Outgoing.stage ho
    have hq' : e.peerQ M = some s' := by rw [← ho]; exact hq
    by_cases hc : Part.closed ∈ ev.input.writes
    · -- The shutdown waits for the proposer.
      obtain ⟨now, i⟩ := ev
      cases i <;> try (simp [Input.writes] at hc; done)
      obtain ⟨hidle, rfl⟩ := locked_eq_some h
      exact .unowed hq' (owed_idle hidle) (owed_idle hidle)
    · exact .same hq' hst (step_agree h .closed hc)
  obtain ⟨now, i⟩ := ev
  cases i <;> try (simp [Input.writes] at hw; done)
  case flip =>
      rcases flipLearner_cases h with ⟨g, rfl⟩ | ⟨peer, n, se, E, k, delta,
        hidle, hg, -, hE, hlE, hnow, -, hd, hlen, rfl⟩
      · exact .inl (.same hq rfl rfl)
      · have hq' : (e.setSender peer ⟨some (E, k), delta, 0⟩).peerQ M
            = some s' := hq
        by_cases hM : M = peer
        · subst hM
          rw [setSender_self] at hq'
          injection hq' with hq'
          exact .inr ⟨E, k, delta, rfl, hq'.symm, rfl, hidle, ⟨n, se, hg⟩,
            hE, hlE, hnow, hd, hlen⟩
        · rw [setSender_of_ne _ _ hM] at hq'
          exact .inl (.same hq' rfl rfl)
  all_goals left
  case fence primary isr minISR data =>
      obtain ⟨hidle, rfl⟩ := locked_eq_some h
      obtain ⟨st, he⟩ := fence_modifies e primary isr minISR data now
      have hq' : e.peerQ M = some s' := by rw [he] at hq; exact hq
      refine .unowed hq' (owed_idle hidle) (owed_of_stage ?_)
      unfold fence
      split
      · intro m ps ls v
        rw [hidle]
        simp
      · simp
  case applyLocal ok =>
      simp only [step, applyLocal] at h
      split at h
      · next E isr d hst =>
        have h0 : e.owed M = [] := owed_of_stage fun m ps ls v => by
          rw [hst]
          simp
        split at h
        · cases h
          exact .unowed hq h0 (owed_of_stage (by simp))
        · cases h
          exact .unowed hq h0 (owed_of_stage (by simp))
      · cases h
  case register =>
      obtain ⟨E, isr, d, pl, -, -, rfl⟩ := register_cases h
      exact .inr ⟨s', hq, rfl, .inl ⟨rfl, rfl⟩⟩
  case submitNext inlined => exact submitNext_sender hs h hq
  case submitDone =>
      simp only [step, submitDone] at h
      split at h
      · next x v hst =>
        have h0 : e.owed M = [] := by
          rw [owed_submitting hst, if_neg (by simp)]
        split at h
        · cases h
          exact .unowed hq h0 (owed_idle rfl)
        · cases h
          exact .unowed hq h0 (owed_idle rfl)
      · cases h
  case senderTake peer n =>
      simp only [step, senderTake] at h
      split at h
      · next s hs' =>
        obtain ⟨-, rfl⟩ := guarded h
        have hq' : (e.setSender peer
            { s with taken := s.taken + n }).peerQ M = some s' := hq
        by_cases hM : M = peer
        · subst hM
          rw [setSender_self] at hq'
          injection hq' with hq'
          subst hq'
          exact .inr ⟨s, hs', rfl, .inr (by rw [owed_congr] <;> rfl)⟩
        · rw [setSender_of_ne _ _ hM] at hq'
          exact .same hq' rfl rfl
      · cases h
  case complete peer msgs res =>
      obtain ⟨pl, c, rfl⟩ := complete_modifies h
      exact .same hq rfl rfl
  case shrinkISR E newISR =>
      obtain ⟨-, rfl⟩ := locked_eq_some h
      unfold shrinkISR at hq ⊢
      split at hq
      · next hno =>
        rw [if_pos hno]
        exact .same hq rfl rfl
      · next hno =>
        rw [if_neg hno]
        exact .same (dropSenders_some hq) rfl rfl
  case abortLearnerCatchup peer | reclaimOrphanLearners | teardownLearners =>
      obtain ⟨-, rfl⟩ := locked_eq_some h
      exact .same (dropSenders_some hq) rfl rfl

-- ======== the target

/-- The catch-up of `e'`, if one still runs, has the target of `g`. -/
def Aims (e' : Engine) (g : Catchup) : Prop :=
  ∀ g', e'.grow = some g' → g'.peer = g.peer

theorem aims_end : e.growEnd.Aims g := by
  intro g' h
  cases h

theorem aims_to {ph : CatchupPhase} : (e.growTo g ph).Aims g := by
  intro g' h
  injection h with h
  rw [← h]

theorem aims_fail {err : GrowErr} : (e.growFail g err).Aims g := by
  unfold growFail
  split
  · exact aims_to
  · exact aims_end

/-- A catch-up keeps the target it was started for. -/
theorem step_target {g' : Catchup} (h : e.step ev = some e')
    (hg' : e'.grow = some g') :
    (∃ g, e.grow = some g ∧ g'.peer = g.peer)
      ∨ ev.input = .growStart g'.peer := by
  by_cases hw : Part.grow ∈ ev.input.writes
  swap
  · have hg : e'.grow = e.grow := step_agree h .grow hw
    exact .inl ⟨g', hg ▸ hg', rfl⟩
  obtain ⟨now, i⟩ := ev
  by_cases hs : ∃ p, i = .growStart p
  · obtain ⟨p, rfl⟩ := hs
    simp only [step, growStart] at h
    split at h
    · cases h
      injection hg' with hg'
      rw [← hg']
      exact .inr rfl
    · cases h
  left
  -- every other section of the catch-up finds one running
  suffices hsuff : ∃ g, e.grow = some g ∧ e'.Aims g by
    obtain ⟨g, hg, ha⟩ := hsuff
    exact ⟨g, hg, ha g' hg'⟩
  cases i <;> try (simp [Input.writes] at hw; done)
  case growStart p => exact absurd ⟨p, rfl⟩ hs
  case growCancel =>
      cases h
      cases hg'
  case growBackfill =>
      simp only [step, growBackfill] at h
      split at h
      · next hg =>
        simp only [Option.map_map, Option.map_eq_some_iff,
          Function.comp_apply] at h
        obtain ⟨r, -, rfl⟩ := h
        cases r with
        | fail err => exact ⟨_, hg, aims_fail⟩
        | caughtUp | send => exact ⟨_, hg, aims_to⟩
      · cases h
  case growFallback =>
      simp only [step, growFallback] at h
      repeat' split at h
      all_goals cases h
      · exact ⟨_, ‹_›, aims_end⟩
      · exact ⟨_, ‹_›, fun g₁ h₁ => by injection h₁ with h₁; rw [← h₁]⟩
  all_goals
    simp only [step, growHandshake, growCheck, growAck, flipLearner,
      takeSnapshot, growShipped] at h
    repeat' split at h
    all_goals cases h
    all_goals first
      | exact ⟨_, ‹_›, aims_end⟩
      | exact ⟨_, ‹_›, aims_fail⟩
      | exact ⟨_, ‹_›, aims_to⟩
      | cases hg'

end Engine

end Rostam.Pbisr
