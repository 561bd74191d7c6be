/-
Engines and committed epochs along a run.

No engine is ahead of the committed control state; every frame and
snapshot on the wire is of a committed epoch; and the committed epochs
form a chain: each was given, when the one before it ended, to another
member of that one's ISR. The last two facts say when an old epoch's
frames can no longer be taken by the node that came next: an ISR wider
than its primary is committed only once the primary has entered its
epoch.

The chain is asked of the run (`admits`): the promotion that is
committed is for a member of the ISR as committed.
-/
import Rostam.Cluster.Proofs.LogMatch
import Rostam.Cluster.Proofs.Reads

namespace Rostam.Cluster

open Rostam.Lib Rostam.Pbisr MetaLog

-- ======== the condition

/-- The entry, committed now, hands the shard to a member of the
committed ISR, and takes into the ISR only nodes at the primary's
frontier. -/
def System.admits (S : System) (op : MetaOp) : Bool :=
  let st := S.committed
  match op with
  | .setShardEpoch E q _ =>
    decide (E ≤ st.epoch) || decide (q ∈ st.isr)
  | .setShardISR E isr => decide (E ≠ st.epoch) || isr.all fun m =>
    decide (m ∈ st.isr)
      || !(S.reps.eng m).poisoned
        && decide ((S.reps.eng m).frontier = (S.reps.eng st.primary).frontier)

theorem System.admits_promotion {S : System} {q : NodeID} {isr : List NodeID}
    (h : S.admits (.setShardEpoch (S.committed.epoch + 1) q isr) = true) :
    q ∈ S.committed.isr := by
  simp only [System.admits, Bool.or_eq_true, decide_eq_true_eq] at h
  exact h.resolve_left (Nat.not_succ_le_self _)

-- ======== the sections

variable {S S' : System} {l : Label} {a : Act} {prim : Nat → NodeID}

/-- A section commits an entry, moves nothing the cluster's safety is
about, or runs one engine section. -/
theorem System.step_kinds (h : S.step l = some S') :
    (∃ i p, l = .commit i ∧ S.proposed[i]? = some p
      ∧ S'.minISR = S.minISR ∧ S'.log = S.log ++ [p.op]
      ∧ S'.reps = S.reps)
    ∨ S'.minISR = S.minISR ∧ S'.log = S.log
      ∧ (S'.reps = S.reps ∨ ∃ a, S.enabled l = true ∧ S.act l = some a
        ∧ S.reps.step a = some S'.reps) := by
  by_cases hl : ∃ i, l = .commit i
  · obtain ⟨i, rfl⟩ := hl
    obtain ⟨p, hp, rfl⟩ := commit_eq h
    exact .inl ⟨i, p, rfl, hp, rfl, rfl, rfl⟩
  · have hf := next_frame S fun i hi => hl ⟨i, hi⟩
    obtain ⟨he, ⟨-, rfl⟩ | ⟨a, R, ha, hR, rfl⟩⟩ := System.step_cases h
    · exact .inr ⟨hf.minISR, hf.log, .inl hf.reps⟩
    · exact .inr ⟨hf.minISR, hf.log, .inr ⟨a, he, ha, hR⟩⟩

/-- Only a node's own sections grant, promote or adopt. -/
theorem System.act_cases (he : S.enabled l = true) (ha : S.act l = some a) :
    S.permits a = true ∨ (∃ E isr, a.ev.input = .shrinkISR E isr)
      ∨ (∃ E isr, a.ev.input = .growISR E isr)
      ∨ (∃ m, a.ev.input = .growStart m)
      ∨ ∃ m, a.ev.input = .abortLearnerCatchup m := by
  cases l with
  | engine b =>
    cases ha
    exact .inl he
  | shrinkApply n now =>
    simp only [System.act] at ha
    split at ha
    · cases ha
      exact .inr (.inl ⟨_, _, rfl⟩)
    · cases ha
  | growApply n =>
    simp only [System.act] at ha
    split at ha
    · cases ha
      exact .inr (.inr (.inl ⟨_, _, rfl⟩))
    · cases ha
  | growCatchup n m =>
    cases ha
    exact .inr (.inr (.inr (.inl ⟨_, rfl⟩)))
  | growSubmit n =>
    simp only [System.act] at ha
    repeat' split at ha
    all_goals cases ha
    exact .inr (.inr (.inr (.inr ⟨_, rfl⟩)))
  | growSubmitted n ok =>
    cases ok
    · simp only [System.act] at ha
      split at ha
      · cases ha
        exact .inr (.inr (.inr (.inr ⟨_, rfl⟩)))
      · cases ha
    · cases ha
  | _ => cases ha

theorem System.saw_eq_true {n : NodeID} {p : Shard → Bool}
    (h : S.saw n p = true) :
    ∃ k, p (state S.minISR (S.log.take k)) = true := by
  obtain ⟨k, -, hk⟩ := List.any_eq_true.1 h
  exact ⟨k, hk⟩

/-- A lease or a promotion is for a committed epoch of the node. -/
theorem System.permits_grant {E x : Nat} (h : S.permits a = true)
    (hinp : a.ev.input = .grantLease E x ∨ a.ev.input = .promote E x) :
    ∃ k, (state S.minISR (S.log.take k)).primary = a.node
      ∧ (state S.minISR (S.log.take k)).epoch = E ∧ a.node ≠ "" := by
  unfold System.permits at h
  rw [Bool.and_eq_true, decide_eq_true_eq] at h
  have hsaw : S.saw a.node (fun st => decide (st.primary = a.node)
      && decide (st.epoch = E)) = true := by
    rcases hinp with hinp | hinp <;> rw [hinp] at h <;> exact h.2
  obtain ⟨k, hk⟩ := System.saw_eq_true hsaw
  rw [Bool.and_eq_true, decide_eq_true_eq, decide_eq_true_eq] at hk
  exact ⟨k, hk.1, hk.2, h.1⟩

/-- Leases follow the committed epochs. -/
theorem System.act_granted (hc : Compat prim S.minISR S.log)
    (hid : (S.reps.eng a.node).nodeID = a.node)
    (he : S.enabled l = true) (ha : S.act l = some a) :
    Engine.Granted prim (S.reps.eng a.node) a.ev := by
  have hgrant : ∀ {E x : Nat}, S.permits a = true →
      a.ev.input = .grantLease E x ∨ a.ev.input = .promote E x →
      prim E = (S.reps.eng a.node).nodeID := by
    intro E x hp hinp
    obtain ⟨k, hk, rfl, hn⟩ := System.permits_grant hp hinp
    rw [hc k (epoch_pos_of_primary (by rw [hk]; exact hn)), hk, hid]
  unfold Engine.Granted
  rcases System.act_cases he ha with hp | ⟨E, isr, hinp⟩
    | ⟨E, isr, hinp⟩ | ⟨m, hinp⟩ | ⟨m, hinp⟩
  · split
    · next hinp => exact hgrant hp (.inl hinp)
    · next hinp => exact hgrant hp (.inr hinp)
    · trivial
  all_goals rw [hinp]; trivial

-- ======== the invariant

/-- How the replicas stand to the committed log. -/
structure CtlInv (prim : Nat → NodeID) (minISR : Nat) (log : MetaLog)
    (R : Replicas) : Prop where
  rep : LogInv prim R
  epoch_le : ∀ n, (R.eng n).epoch ≤ (state minISR log).epoch
  transfers : ∀ x ∈ R.transfers, x.snap.epoch ≤ (state minISR log).epoch
  chain : ∀ E, 1 ≤ E → E < (state minISR log).epoch →
    prim (E + 1) ∈ isrOf minISR log E ∧ prim (E + 1) ≠ prim E
  led : ∀ E, 2 ≤ E → E < (state minISR log).epoch → E ≤ (R.eng (prim E)).epoch
  leads : 2 ≤ (state minISR log).epoch →
    (∀ m ∈ (state minISR log).isr, m = (state minISR log).primary)
      ∨ (state minISR log).epoch ≤ (R.eng (state minISR log).primary).epoch

section Ctl

variable {minISR : Nat} {log : MetaLog} {R R' : Replicas}

/-- Every registered write is of a committed epoch. -/
theorem CtlInv.wrote_le (hi : CtlInv prim minISR log R) {s E : Nat}
    {h : List Data} (hw : Wrote R s E h) :
    E ≤ (state minISR log).epoch :=
  Nat.le_trans (hi.rep.reached hw) (hi.epoch_le _)

/-- What an engine section adopts is committed. -/
theorem CtlInv.adopts_le (hi : CtlInv prim S.minISR S.log S.reps)
    (he : S.enabled l = true) (ha : S.act l = some a)
    (hb : S.reps.backed a = true) {E : Nat}
    (hE : a.ev.input.Carries E
      ∨ ∃ x, a.ev.input = .grantLease E x ∨ a.ev.input = .promote E x) :
    E ≤ (state S.minISR S.log).epoch := by
  rcases System.act_cases he ha with hp | ⟨E', isr, hinp⟩
    | ⟨E', isr, hinp⟩ | ⟨m, hinp⟩ | ⟨m, hinp⟩
  swap; · rw [hinp] at hE; simp [Input.Carries] at hE
  swap; · rw [hinp] at hE; simp [Input.Carries] at hE
  swap; · rw [hinp] at hE; simp [Input.Carries] at hE
  swap; · rw [hinp] at hE; simp [Input.Carries] at hE
  rcases hE with hE | ⟨x, hinp⟩
  · cases hinp : a.ev.input <;> rw [hinp] at hE
      <;> try (simp [Input.Carries] at hE; done)
    case adoptEpoch E' =>
        cases hE
        unfold System.permits at hp
        rw [Bool.and_eq_true, hinp] at hp
        obtain ⟨k, hk⟩ := System.saw_eq_true hp.2
        rw [← of_decide_eq_true hk]
        exact epoch_take_le ..
    case snapshotFence E' =>
        cases hE
        unfold Replicas.backed at hb
        rw [hinp] at hb
        obtain ⟨x, hx, hk⟩ := List.any_eq_true.1 hb
        rw [Bool.and_eq_true, decide_eq_true_eq, decide_eq_true_eq] at hk
        rw [← hk.2]
        exact hi.transfers x hx
    case receive m ok =>
        cases hE
        obtain ⟨h, hw⟩ := (hi.rep.delivered hb (m := m)
          (by rw [hinp]; rfl)).wrote
        exact hi.wrote_le hw
    case receiveGroup ms =>
        obtain ⟨m, ok, hm, rfl⟩ := hE
        obtain ⟨h, hw⟩ := (hi.rep.delivered hb (m := m)
          (by rw [hinp]; exact ⟨ok, hm⟩)).wrote
        exact hi.wrote_le hw
  · obtain ⟨k, -, rfl, -⟩ := System.permits_grant hp hinp
    exact epoch_take_le ..

/-- One engine section. -/
theorem CtlInv.act (hi : CtlInv prim S.minISR S.log S.reps)
    (hc : Compat prim S.minISR S.log) (he : S.enabled l = true)
    (ha : S.act l = some a)
    (hk : (S.reps.eng a.node).forgets a.ev = false)
    (h : S.reps.step a = some R') :
    CtlInv prim S.minISR S.log R' := by
  have hg := System.act_granted hc (hi.rep.node a.node).id he ha
  have hmono := replicas_epoch_le h
  have hrep := step_logInv hi.rep ⟨hg, hk⟩ h
  obtain ⟨hb, e', he', rfl⟩ := step_eq_some h
  refine ⟨hrep, fun n => ?_, fun x hx => ?_, hi.chain,
    fun E h2 hE => Nat.le_trans (hi.led E h2 hE) (hmono _),
    fun h2 => (hi.leads h2).imp_right fun hl => Nat.le_trans hl (hmono _)⟩
  · by_cases hn : n = a.node
    · rw [hn, after_self]
      have hle := hi.epoch_le a.node
      rcases Engine.step_tenure he' with ht | ⟨E, hE, -, ht⟩
        | ⟨E, x, hinp, -, ht⟩ | ⟨E, x, hinp, -, -, ht⟩
      · rw [ht]
        exact hle
      · rw [ht]
        exact hi.adopts_le he ha hb (.inl hE)
      · rw [ht]
        exact Nat.max_le.2 ⟨hle, hi.adopts_le he ha hb (.inr ⟨x, .inl hinp⟩)⟩
      · rw [ht]
        exact hi.adopts_le he ha hb (.inr ⟨x, .inr hinp⟩)
    · rw [after_of_ne hn]
      exact hi.epoch_le n
  · rcases List.mem_append.1 hx with hx | hx
    · exact hi.transfers x hx
    · obtain ⟨-, -, -, -, hE, -⟩ := mem_snapped hx
      rw [← hE]
      exact hi.epoch_le a.node

theorem ne_nil_of_epoch (h : 1 ≤ (state minISR log).epoch) : log ≠ [] := by
  rintro rfl
  exact absurd h (Nat.not_succ_le_zero 0)

/-- One committed entry. -/
theorem CtlInv.commit {p : Proposal} (hi : CtlInv prim S.minISR S.log S.reps)
    (hc : Compat prim S.minISR (S.log ++ [p.op])) (hp : ProposalOk S p)
    (hk : S.admits p.op = true) :
    CtlInv prim S.minISR (S.log ++ [p.op]) S.reps := by
  have hst : state S.minISR (S.log ++ [p.op]) = S.committed.apply p.op :=
    state_append ..
  have hisr : ∀ E, E < S.committed.epoch →
      isrOf S.minISR (S.log ++ [p.op]) E = isrOf S.minISR S.log E := by
    intro E hE
    have hle := S.committed.epoch_le_apply p.op
    rw [isrOf_append]
    refine if_neg ?_
    show E ≠ (S.committed.apply p.op).epoch
    omega
  have hchain : ∀ E, 1 ≤ E → E < S.committed.epoch →
      prim (E + 1) ∈ isrOf S.minISR (S.log ++ [p.op]) E
        ∧ prim (E + 1) ≠ prim E := by
    intro E h1 hE
    rw [hisr E hE]
    exact hi.chain E h1 hE
  rcases hp.commits with h | ⟨q, hop, hne, hpos, h⟩
    | ⟨isr, hop, h, hmem, hep, -⟩ <;> rw [h] at hst
  · exact ⟨hi.rep, by rw [hst]; exact hi.epoch_le,
      by rw [hst]; exact hi.transfers, by rw [hst]; exact hchain,
      by rw [hst]; exact hi.led, by rw [hst]; exact hi.leads⟩
  · -- the next epoch: the old one ends in the ISR it has now
    have hq : q ∈ S.committed.isr := System.admits_promotion (hop ▸ hk)
    have hold : prim S.committed.epoch = S.committed.primary :=
      hc.of_append.state hpos
    have hlast : isrOf S.minISR S.log S.committed.epoch
        = S.committed.isr := isrOf_epoch (ne_nil_of_epoch hpos)
    have hnew : prim (S.committed.epoch + 1) = q := by
      have := hc.state (by rw [hst]; exact Nat.le_add_left 1 _)
      rw [hst] at this
      exact this
    refine ⟨hi.rep, ?_, ?_, ?_, ?_, ?_⟩ <;> rw [hst]
    · exact fun n => Nat.le_succ_of_le (hi.epoch_le n)
    · exact fun x hx => Nat.le_succ_of_le (hi.transfers x hx)
    · intro E h1 hE
      have hE' : E < S.committed.epoch + 1 := hE
      rcases Nat.lt_succ_iff_lt_or_eq.1 hE' with hlt | rfl
      · exact hchain E h1 hlt
      · rw [hnew, isrOf_append, if_neg]
        · rw [hlast, hold]
          exact ⟨hq, hne⟩
        · show S.committed.epoch ≠ (S.committed.apply p.op).epoch
          rw [h]
          exact (Nat.succ_ne_self _).symm
    · intro E h2 hE
      have hE' : E < S.committed.epoch + 1 := hE
      rcases Nat.lt_succ_iff_lt_or_eq.1 hE' with hlt | rfl
      · exact hi.led E h2 hlt
      · rcases hi.leads h2 with hone | hle
        · exact absurd (hone q hq) hne
        · rw [hold]
          exact hle
    · exact fun _ => .inl fun m hm => List.mem_singleton.1 hm
  · refine ⟨hi.rep, ?_, ?_, ?_, ?_, ?_⟩ <;> rw [hst]
    · exact hi.epoch_le
    · exact hi.transfers
    · exact hchain
    · exact hi.led
    · exact fun _ => .inr hep

end Ctl

end Rostam.Cluster
