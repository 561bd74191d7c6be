/-
Which copies of a write can no longer be lost.

`Safe E m h`: node `m` has answered for the write with history `h` of
epoch `E`, and whatever that is worth is still there. While `E` is the
committed epoch it is worth something if `m` is in the committed ISR:
then `m` has the write. Once `E` has ended it is worth something if `m`
is the node the shard was handed to: then every member of the ISR has
the write, that ISR having grown from `m` alone.

Every record waits for each other node or is safe there (`SafeInv`,
`record`): a peer leaves a record's pending set by an ack, and whatever
an ack covers is safe at the node that gave it; or by a shrink, and then
it is not in the ISR the epoch has. What that asks of a run is
`careful`: the sections named there are the ones that break it.
-/
import Rostam.Cluster.Proofs.Epochs
import Rostam.Pbisr.Proofs.Acks

namespace Rostam.Cluster

open Rostam.Lib Rostam.Pbisr MetaLog

-- ======== the condition

/-- The section keeps the ISR of its epoch behind every write: a
registration waits for all of it, a shrink narrows to no less, and no
member's log is replaced. -/
def System.covers (S : System) (a : Act) : Bool :=
  let e := S.reps.eng a.node
  match a.ev.input with
  | .register => match e.stage with
      | .applied E isr _ => (isrOf S.minISR S.log E).all fun m =>
        decide (m = a.node) || decide (m ∈ e.requiredPeers E isr)
      | _ => true
  | .shrinkISR E newISR => decide (E ≠ e.epoch ∨ e.leaseEpoch ≠ E)
      || (isrOf S.minISR S.log E).all fun m =>
        decide (m = a.node) || decide (m ∈ newISR)
  | .installSnapshot s _ =>
    e.installAborts s || decide (a.node ∉ S.committed.isr)
  | _ => true

/-- The sections a run may take. -/
def System.careful (S : System) (l : Label) : Bool := (match S.act l with
    | some a => !(S.reps.eng a.node).forgets a.ev
        && !(S.reps.eng a.node).slips a.ev && S.covers a
    | none => true)
    && match l with
      | .commit i => S.proposed[i]?.all fun p => S.admits p.op
      | _ => true

variable {prim : Nat → NodeID} {minISR : Nat} {log : MetaLog}
  {R R' : Replicas} {S : System} {a : Act} {l : Label}
  {E : Nat} {m n : NodeID} {hist : List Data}

theorem System.careful_act (h : S.careful l = true) (ha : S.act l = some a) :
    (S.reps.eng a.node).forgets a.ev = false
      ∧ (S.reps.eng a.node).slips a.ev = false ∧ S.covers a = true := by
  unfold System.careful at h
  rw [Bool.and_eq_true, ha] at h
  simp only [Bool.and_eq_true, Bool.not_eq_true'] at h
  exact ⟨h.1.1.1, h.1.1.2, h.1.2⟩

theorem System.careful_commit {i : Nat} {p : Proposal}
    (h : S.careful (.commit i) = true) (hp : S.proposed[i]? = some p) :
    S.admits p.op = true := by
  simp only [System.careful, hp, Bool.and_eq_true] at h
  exact h.2

/-- An ISR member a registration does not wait for is no member. -/
theorem System.covers_register {isr : List NodeID} {d : Data}
    (h : S.covers a = true) (hinp : a.ev.input = .register)
    (hst : (S.reps.eng a.node).stage = .applied E isr d)
    (hm : m ≠ a.node) (hreq : m ∉ (S.reps.eng a.node).requiredPeers E isr) :
    m ∉ isrOf S.minISR S.log E := by
  intro hmem
  unfold System.covers at h
  simp only [hinp, hst] at h
  have := List.all_eq_true.1 h m hmem
  simp only [Bool.or_eq_true, decide_eq_true_eq] at this
  exact this.elim hm hreq

/-- A peer an effective shrink drops is no member. -/
theorem System.covers_shrink {newISR : List NodeID}
    (h : S.covers a = true) (hinp : a.ev.input = .shrinkISR E newISR)
    (hE : E = (S.reps.eng a.node).epoch)
    (hl : (S.reps.eng a.node).leaseEpoch = E) (hm : m ≠ a.node)
    (hdrop : m ∉ newISR) : m ∉ isrOf S.minISR S.log E := by
  intro hmem
  unfold System.covers at h
  simp only [hinp] at h
  rcases Bool.or_eq_true_iff.1 h with h | h
  · exact (of_decide_eq_true h).elim (fun h => h hE) fun h => h hl
  · have := List.all_eq_true.1 h m hmem
    simp only [Bool.or_eq_true, decide_eq_true_eq] at this
    exact this.elim hm hdrop

/-- An install leaves members alone. -/
theorem System.covers_install {s : Snapshot}
    {out : Engine.InstallOutcome} (h : S.covers a = true)
    (hm : a.node ∈ S.committed.isr)
    (hinp : a.ev.input = .installSnapshot s out) :
    (S.reps.eng a.node).installAborts s = true := by
  unfold System.covers at h
  simp only [hinp] at h
  rcases Bool.or_eq_true_iff.1 h with h | h
  · exact h
  · exact absurd hm (of_decide_eq_true h)

-- ======== safe copies

/-- What `m` answered for is still there: the write of epoch `E` with
history `hist`. -/
def Safe (prim : Nat → NodeID) (minISR : Nat) (log : MetaLog)
    (R : Replicas) (E : Nat) (m : NodeID) (hist : List Data) : Prop :=
  (E = (state minISR log).epoch → m ∈ (state minISR log).isr →
    hist <+: (R.eng m).history)
  ∧ (E < (state minISR log).epoch → m = prim (E + 1) →
    ∀ x ∈ (state minISR log).isr, hist <+: (R.eng x).history)

/-- While the members' histories grow, safe copies stay safe. -/
theorem Safe.grows (h : Safe prim minISR log R E m hist)
    (hg : ∀ x ∈ (state minISR log).isr,
      (R.eng x).history <+: (R'.eng x).history) :
    Safe prim minISR log R' E m hist :=
  ⟨fun hE hm => (h.1 hE hm).trans (hg m hm),
    fun hE hm x hx => (h.2 hE hm x hx).trans (hg x hx)⟩

/-- A node outside the ISR of the epoch has nothing to lose. -/
theorem Safe.of_not_mem (hi : CtlInv prim minISR log R) (h1 : 1 ≤ E)
    (hm : m ∉ isrOf minISR log E) : Safe prim minISR log R E m hist := by
  refine ⟨fun hE hx => absurd ?_ hm, fun hE hx => absurd ?_ hm⟩
  · rw [hE, isrOf_epoch (ne_nil_of_epoch (hE ▸ h1))]
    exact hx
  · rw [hx]
    exact (hi.chain E h1 hE).1

/-- Safe copies, and what keeps them so. -/
structure SafeInv (prim : Nat → NodeID) (minISR : Nat) (log : MetaLog)
    (R : Replicas) : Prop where
  ctl : CtlInv prim minISR log R
  level : ∀ n, (R.eng n).commitLevel = .fullISR
  clean : ∀ n, (R.eng n).poisoned = false →
    Wrote R (R.eng n).frontier.1 (R.eng n).frontier.2 (R.eng n).history
  grouped : ∀ n p ms, (p, ms) ∈ (R.eng n).outbox → Engine.groupable ms = true
  shipped : ∀ x ∈ R.acks, x.1 ∈ R.sent
  member : ∀ m ∈ (state minISR log).isr, (R.eng m).poisoned = false
  acked : ∀ n, ∀ r ∈ (R.eng n).pl.recs, r.acked = true → r.pending = []
  own : ∀ n, ∀ r ∈ (R.eng n).pl.recs, r.epoch = (state minISR log).epoch →
    r.hist <+: (R.eng n).history
  record : ∀ n, ∀ r ∈ (R.eng n).pl.recs, ∀ m, m ≠ n →
    m ∈ r.pending ∨ Safe prim minISR log R r.epoch m r.hist
  accepted : ∀ x ∈ R.acks, Engine.groupable x.1.msgs = true →
    ∀ f ∈ x.1.msgs, Acked x.1.msgs x.2 f → ∀ h, Wrote R f.seq f.epoch h →
      Safe prim minISR log R f.epoch x.1.dst h

-- ======== real epochs

/-- An epoch that has an owner under every assignment is a committed
one: nothing binds epoch zero. -/
theorem epoch_pos_of_owned
    (h : ∀ prim, Compat prim minISR log → prim E = n) : 1 ≤ E := by
  rcases Nat.eq_zero_or_pos E with rfl | hpos
  · obtain ⟨prim, hc⟩ := exists_compat minISR log
    obtain ⟨x, hx⟩ : ∃ x : NodeID, x ≠ n := by
      by_cases hn : n = ""
      · exact ⟨"a", by rw [hn]; decide⟩
      · exact ⟨"", Ne.symm hn⟩
    refine absurd (h (fun E => if E = 0 then x else prim E)
      fun k hk => ?_) hx
    dsimp only
    rw [if_neg (by omega)]
    exact hc k hk
  · exact hpos

section Real

variable (hall : ∀ prim, Compat prim minISR log → LogInv prim R)
include hall

theorem captures_pos (hc : Captures (R.eng n) E) : 1 ≤ E :=
  epoch_pos_of_owned fun prim hp => ((hall prim hp).node n).captures E hc

theorem record_pos {r : Inflight} (hr : r ∈ (R.eng n).pl.recs) : 1 ≤ r.epoch :=
  epoch_pos_of_owned fun prim hp => ((hall prim hp).node n).own r hr

theorem wrote_pos {s : Nat} (hs : 1 ≤ s) (hw : Wrote R s E hist) : 1 ≤ E := by
  rcases hw with ⟨rfl, -⟩ | ⟨n, r, hr, -, rfl, -⟩
  · omega
  · exact record_pos hall hr

end Real

-- ======== one engine section

/-- What an answer covers was accepted in the section that gave it. -/
theorem answered_accepts {e e' : Engine} {x : Shipment × AckMsg}
    {f : ReplicateMsg} (h : e.step a.ev = some e')
    (hx : x ∈ Replicas.answered e a)
    (hg : Engine.groupable x.1.msgs = true)
    (hpos : ∀ y ∈ x.1.msgs, 1 ≤ y.seq) (hf : f ∈ x.1.msgs)
    (ha : Acked x.1.msgs x.2 f) :
    x.1.dst = a.node ∧ ∃ ms, f ∈ ms
      ∧ (∀ y ∈ ms, a.ev.input.Delivers y ∧ e.Between e' y)
      ∧ e.toLog.Receives ms e'.toLog := by
  obtain ⟨node, src, now, i⟩ := a
  unfold Replicas.answered at hx
  cases i <;> try (cases hx; done)
  case receive m ok =>
      cases h
      obtain rfl := List.mem_singleton.1 hx
      obtain ⟨hr, hb, rfl⟩ := Engine.receiveLocked_accepts hf ha
      refine ⟨rfl, [f], by simp, fun y hy => ?_, hr⟩
      rw [List.mem_singleton.1 hy]
      exact ⟨rfl, hb⟩
  case receiveGroup msgs =>
      cases h
      obtain rfl := List.mem_singleton.1 hx
      cases msgs with
      | nil => cases hf
      | cons y rest =>
        obtain ⟨m, ok⟩ := y
        obtain ⟨ms, hms⟩ := e.receiveGroup_accepts m ok rest now
        refine ⟨rfl, ms, ?_, fun y hy => ⟨?_, hms.between y hy⟩, hms.receives⟩
        · exact hms.mem hg (hpos m (by simp)) hf ha
        · have hmem : y ∈ ((m, ok) :: rest).map Prod.fst := hms.front.subset hy
          obtain ⟨⟨z, ok'⟩, hz, rfl⟩ := List.mem_map.1 hmem
          exact ⟨ok', hz⟩

/-- An answer is to a submission on the wire. -/
theorem answered_sent {e : Engine} {x : Shipment × AckMsg}
    (hb : R.backed a = true) (hx : x ∈ Replicas.answered e a) :
    x.1 ∈ R.sent := by
  unfold Replicas.answered at hx
  unfold Replicas.backed at hb
  split at hx
  · next hinp =>
    rw [List.mem_singleton.1 hx]
    simp only [hinp] at hb
    exact of_decide_eq_true hb
  · next hinp =>
    rw [List.mem_singleton.1 hx]
    simp only [hinp] at hb
    exact of_decide_eq_true hb
  · cases hx

section Act

variable {e' : Engine} (hi : SafeInv prim S.minISR S.log S.reps)
  (hf : (S.reps.eng a.node).forgets a.ev = false)
  (hs : (S.reps.eng a.node).slips a.ev = false)
  (hk : S.covers a = true)
  (h : (S.reps.eng a.node).step a.ev = some e')
include hi hf hs hk h

variable {r : Inflight}

/-- A member's history only grows. -/
theorem SafeInv.history_grows (hm : m ∈ S.committed.isr) :
    (S.reps.eng m).history <+: ((S.reps.after a e').eng m).history := by
  by_cases hn : m = a.node
  · rw [hn, after_self]
    rw [hn] at hm
    exact Engine.history_grows (hi.ctl.rep.node a.node).dated hf hs h
      fun s out hinp => System.covers_install hk hm hinp
  · rw [after_of_ne hn]

omit hf hs in
/-- A member is not poisoned. -/
theorem SafeInv.member_act (hm : m ∈ S.committed.isr) :
    ((S.reps.after a e').eng m).poisoned = false := by
  have hold := hi.member m hm
  by_cases hn : m = a.node
  · rw [hn, after_self]
    rw [hn] at hm hold
    by_cases hinst : ∃ s out, a.ev.input = .installSnapshot s out
    · obtain ⟨s, out, hinp⟩ := hinst
      have hab := System.covers_install hk hm hinp
      obtain ⟨node, src, now, i⟩ := a
      subst hinp
      obtain ⟨-, rfl⟩ := Engine.locked_eq_some h
      unfold Engine.installSnapshot
      rw [if_pos hab]
      exact hold
    · rw [(Engine.step_appends h fun s out hx => hinst ⟨s, out, hx⟩).2]
      exact hold
  · rw [after_of_ne hn]
    exact hold

omit hk in
/-- The frontier of an un-poisoned node names its history. -/
theorem SafeInv.clean_self (hb : S.reps.backed a = true)
    (hpo : e'.poisoned = false) :
    Wrote (S.reps.after a e') e'.frontier.1 e'.frontier.2 e'.history := by
  have hN := hi.ctl.rep.node a.node
  have hmono := fun {s E hist} (hw : Wrote S.reps s E hist) =>
    hi.ctl.rep.wrote_mono h hw
  rcases Engine.step_history hN.dated hf hs h with hst
    | ⟨E, isr, d, hinp, hst, hfr, hh, -⟩
    | ⟨ms, -, hms, h0, h1, hr⟩ | ⟨s, out, hinp, hidle, hidle', -, hl⟩
  · rw [hst.frontier, hst.history]
    rw [hst.poisoned] at hpo
    exact hmono (hi.clean a.node hpo)
  · rw [hfr, hh]
    exact wrote_new h hinp hst
  · rw [h1]
    have hw := hi.clean a.node (hr.appends.2 ▸ hpo)
    rw [h0] at hw
    refine hmono (Receives.wrote hi.ctl.rep.lawful hr
      (fun x hx => hi.ctl.rep.delivered hb (hms x hx).1)
      (fun x hx => ?_) hw)
    exact Nat.le_trans hN.frontier_le_epoch (hms x hx).2.1
  · have hmid : e'.midWrite = false :=
      Engine.midWrite_eq_false (by simp [hidle'])
    rw [Engine.history_of_midWrite hmid]
    rw [hl] at hpo ⊢
    cases out with
    | fsmErr g => cases hpo
    | commitErr => cases hpo
    | ok =>
      rw [Log.afterInstall_frontier _ _ (by simp)]
      exact hmono (hi.ctl.rep.installed hb hinp).2.2.2

/-- A safe copy stays safe. -/
theorem SafeInv.safe_act {E : Nat}
    (hw : Safe prim S.minISR S.log S.reps E m hist) :
    Safe prim S.minISR S.log (S.reps.after a e') E m hist :=
  hw.grows fun _ hx => hi.history_grows hf hs hk h hx

/-- The node's own history keeps its writes of the committed epoch. -/
theorem SafeInv.own_self (hc : Compat prim S.minISR S.log)
    (hpos : 1 ≤ S.committed.epoch)
    (hlead : S.committed.primary ∈ S.committed.isr)
    (hr : r ∈ e'.pl.recs) (hE : r.epoch = S.committed.epoch) :
    r.hist <+: e'.history := by
  have hN := hi.ctl.rep.node a.node
  obtain ⟨i, hi'⟩ := List.getElem?_of_mem hr
  obtain ⟨r₀, hev, hr₀ | ⟨-, E, isr, d, hinp, hst, hr₀⟩⟩ :=
    (hN.wf.turns h).backward hi'
  · have hmem := List.mem_of_getElem? hr₀
    have hprim : S.committed.primary = a.node := by
      have h1 := hc.state hpos
      change prim S.committed.epoch = S.committed.primary at h1
      rw [← h1, ← hE, hev.epoch_eq]
      exact hN.own r₀ hmem
    rw [hprim] at hlead
    have hgrow := hi.history_grows hf hs hk h hlead
    rw [after_self] at hgrow
    rw [hev.hist_eq]
    rw [hev.epoch_eq] at hE
    exact (hi.own a.node r₀ hmem hE).trans hgrow
  · obtain ⟨-, hmid⟩ := Engine.register_window h hinp
    rw [hev.hist_eq, hr₀, Engine.history_of_midWrite hmid,
      Engine.register_log h hinp hst]
    exact List.prefix_rfl

/-- A credit is an ack of the write, or the peer is no member. -/
theorem SafeInv.credited
    (hall : ∀ prim, Compat prim S.minISR S.log → LogInv prim S.reps)
    (hb : S.reps.backed a = true)
    (hr : r ∈ (S.reps.eng a.node).pl.recs) (hm : m ≠ a.node)
    (hcr : Credits a.ev m r.epoch r.seq)
    (hsh : ∀ E newISR, a.ev.input = .shrinkISR E newISR →
      E = (S.reps.eng a.node).epoch ∧ (S.reps.eng a.node).leaseEpoch = E) :
    Safe prim S.minISR S.log S.reps r.epoch m r.hist := by
  unfold Credits at hcr
  split at hcr
  · next peer msgs ack hinp =>
    obtain ⟨rfl, hatt⟩ := hcr
    have hack : (⟨a.node, peer, msgs⟩, ack) ∈ S.reps.acks := by
      unfold Replicas.backed at hb
      simp only [hinp] at hb
      exact of_decide_eq_true hb
    have hout : (peer, msgs) ∈ (S.reps.eng a.node).outbox := by
      obtain ⟨node, src, now, i⟩ := a
      subst hinp
      exact Engine.complete_mem h
    have hgrp := hi.grouped a.node peer msgs hout
    obtain ⟨f, hfm, hfe, hfs, hacked⟩ := hatt.acked hgrp
    have hsafe := hi.accepted _ hack hgrp f hfm hacked r.hist
      (.inr ⟨a.node, r, hr, hfs.symm, hfe.symm, rfl⟩)
    rw [hfe] at hsafe
    exact hsafe
  · next E newISR hinp =>
    obtain ⟨rfl, hdrop⟩ := hcr
    obtain ⟨hE, hl⟩ := hsh _ _ hinp
    exact .of_not_mem hi.ctl (record_pos hall hr)
      (System.covers_shrink hk hinp hE hl hm hdrop)
  · cases hcr

/-- A record waits for a node or is safe there. -/
theorem SafeInv.record_self
    (hall : ∀ prim, Compat prim S.minISR S.log → LogInv prim S.reps)
    (hb : S.reps.backed a = true) (hr : r ∈ e'.pl.recs)
    (hm : m ≠ a.node) :
    m ∈ r.pending
      ∨ Safe prim S.minISR S.log (S.reps.after a e') r.epoch m r.hist := by
  have hN := hi.ctl.rep.node a.node
  by_cases hsh : ∀ E newISR, a.ev.input = .shrinkISR E newISR →
      E = (S.reps.eng a.node).epoch ∧ (S.reps.eng a.node).leaseEpoch = E
  swap
  · -- a shrink off the leased epoch does nothing
    have heq : e' = S.reps.eng a.node := by
      rw [not_forall] at hsh
      obtain ⟨E, hsh⟩ := hsh
      rw [not_forall] at hsh
      obtain ⟨newISR, hsh⟩ := hsh
      rw [Classical.not_imp] at hsh
      obtain ⟨hinp, hno⟩ := hsh
      obtain ⟨node, src, now, i⟩ := a
      subst hinp
      obtain ⟨-, rfl⟩ := Engine.locked_eq_some h
      unfold Engine.shrinkISR
      refine if_pos ?_
      rw [not_and_or] at hno
      exact hno
    rw [heq] at hr
    exact (hi.record a.node r hr m hm).imp_right fun hw =>
      hi.safe_act hf hs hk h hw
  obtain ⟨i, hi'⟩ := List.getElem?_of_mem hr
  obtain ⟨r₀, hev, hr₀ | ⟨-, E, isr, d, hinp, hst, hr₀⟩⟩ :=
    (hN.wf.turns h).backward hi'
  · have hmem := List.mem_of_getElem? hr₀
    rw [hev.epoch_eq, hev.hist_eq]
    rcases hi.record a.node r₀ hmem m hm with hp | hsafe
    · rcases hev.credited m hp with hp | hcr
      · exact .inl hp
      · exact .inr (hi.safe_act hf hs hk h
          (hi.credited hf hs hk h hall hb hmem hm hcr hsh))
    · exact .inr (hi.safe_act hf hs hk h hsafe)
  · by_cases hreq : m ∈ (S.reps.eng a.node).requiredPeers E isr
    · left
      have hp : m ∈ r₀.pending := by
        rw [hr₀]
        exact hreq
      rcases hev.credited m hp with hp | hcr
      · exact hp
      · unfold Credits at hcr
        rw [hinp] at hcr
        cases hcr
    · right
      rw [hev.epoch_eq, hr₀]
      exact hi.safe_act hf hs hk h (.of_not_mem hi.ctl
        (captures_pos hall ⟨isr, d, .inr hst⟩)
        (System.covers_register hk hinp hst hm hreq))

omit hf hk in
/-- What the section's own answer covers is safe at the node. -/
theorem SafeInv.accepted_new (hc : Compat prim S.minISR S.log)
    (hall : ∀ prim, Compat prim S.minISR S.log → LogInv prim S.reps)
    (hb : S.reps.backed a = true) {x : Shipment × AckMsg}
    (hx : x ∈ Replicas.answered (S.reps.eng a.node) a)
    (hg : Engine.groupable x.1.msgs = true) {f : ReplicateMsg}
    (hfm : f ∈ x.1.msgs) (ha : Acked x.1.msgs x.2 f)
    (hw : Wrote S.reps f.seq f.epoch hist) :
    Safe prim S.minISR S.log (S.reps.after a e') f.epoch x.1.dst hist := by
  have hN := hi.ctl.rep.node a.node
  have hsent := answered_sent hb hx
  have hpos : ∀ y ∈ x.1.msgs, 1 ≤ y.seq := fun y hy => by
    rw [(hi.ctl.rep.sent _ hsent y hy).seq]
    exact Nat.le_add_left 1 _
  obtain ⟨hdst, ms, hms, hdel, hr⟩ := answered_accepts h hx hg hpos hfm ha
  have hne : e'.toLog ≠ (S.reps.eng a.node).toLog := by
    intro heq
    have h1 := (Receives.seqs hr).1
    rw [heq] at h1
    have h2 := List.length_pos_of_mem hms
    omega
  have hmid := Engine.receives_outside hs h (hdel f hms).1 hne
  have hmid' : e'.midWrite = false := by
    rw [Engine.midWrite_congr (Engine.delivers_stage h (hdel f hms).1), hmid]
  have hpo : (S.reps.eng a.node).poisoned = false := by
    rcases hr.eq_or_mem with heq | ⟨y, hy⟩
    · exact absurd heq hne
    · exact hr.not_poisoned hy
  -- the accepted prefix ends in the write the frame carries
  obtain ⟨hist', hw', hpre⟩ := Receives.mem_wrote hi.ctl.rep.lawful hr
    (fun y hy => hi.ctl.rep.delivered hb (hdel y hy).1)
    (fun y hy => Nat.le_trans hN.frontier_le_epoch (hdel y hy).2.1)
    ((hN.log hpo).rest hmid) hms
  have hhas : hist <+: ((S.reps.after a e').eng a.node).history := by
    rw [after_self, Engine.history_of_midWrite hmid',
      hi.ctl.rep.lawful.unique hw hw']
    exact hpre
  have h1 : 1 ≤ f.epoch := wrote_pos hall (hpos f hfm) hw
  have hbelow := (hdel f hms).2.1
  rw [hdst]
  refine ⟨fun _ _ => hhas, fun hlt hnext y hy => ?_⟩
  have hle : f.epoch + 1 ≤ S.committed.epoch := hlt
  rcases Nat.lt_or_eq_of_le hle with hlt' | heq
  · have := hi.ctl.led (f.epoch + 1) (by omega) hlt'
    rw [← hnext] at this
    omega
  · have hprim : prim S.committed.epoch = S.committed.primary :=
      hc.state (by omega)
    rw [heq, hprim] at hnext
    have h2 : 2 ≤ S.committed.epoch := by omega
    rcases hi.ctl.leads h2 with hone | hle'
    · have hya : y = a.node := (hone y hy).trans hnext.symm
      rw [hya]
      exact hhas
    · change S.committed.epoch ≤ (S.reps.eng S.committed.primary).epoch at hle'
      rw [← hnext] at hle'
      omega

end Act

/-- One engine section. -/
theorem SafeInv.act (hi : SafeInv prim S.minISR S.log S.reps)
    (hall : ∀ prim, Compat prim S.minISR S.log → LogInv prim S.reps)
    (hc : Compat prim S.minISR S.log) (hpos : 1 ≤ S.committed.epoch)
    (hlead : S.committed.primary ∈ S.committed.isr)
    (he : S.enabled l = true) (ha : S.act l = some a)
    (hk : S.careful l = true) (h : S.reps.step a = some R') :
    SafeInv prim S.minISR S.log R' := by
  obtain ⟨hf, hs, hcov⟩ := System.careful_act hk ha
  have hctl := hi.ctl.act hc he ha hf h
  obtain ⟨hb, e', he', rfl⟩ := step_eq_some h
  have hother : ∀ {P : NodeID → Engine → Prop},
      (∀ n, P n (S.reps.eng n)) → P a.node e' →
      ∀ n, P n ((S.reps.after a e').eng n) := by
    intro P h0 h1 n
    by_cases hn : n = a.node
    · rw [hn, after_self]
      exact h1
    · rw [after_of_ne hn]
      exact h0 n
  refine ⟨hctl, ?_, ?_, ?_, ?_, fun m hm => hi.member_act hcov he' hm,
    ?_, ?_, ?_, ?_⟩
  · refine hother (P := fun _ e => e.commitLevel = .fullISR) hi.level ?_
    rw [← hi.level a.node]
    exact congrArg Identity.commitLevel (Engine.step_identity he')
  · refine hother (P := fun _ e => e.poisoned = false →
      Wrote (S.reps.after a e') e.frontier.1 e.frontier.2 e.history)
      (fun n hpo => ?_) fun hpo => hi.clean_self hf hs he' hb hpo
    exact hi.ctl.rep.wrote_mono he' (hi.clean n hpo)
  · refine hother (P := fun _ e => ∀ p ms, (p, ms) ∈ e.outbox →
      Engine.groupable ms = true) hi.grouped fun p ms hm => ?_
    rcases Engine.step_outbox he' hm with hm | hg
    · exact hi.grouped a.node p ms hm
    · exact hg
  · intro x hx
    refine List.mem_append_left _ ?_
    rcases List.mem_append.1 hx with hx | hx
    · exact hi.shipped x hx
    · exact answered_sent hb hx
  · refine hother (P := fun _ e => ∀ r ∈ e.pl.recs, r.acked = true →
      r.pending = []) hi.acked ?_
    exact ((hi.ctl.rep.node a.node).wf.turns he').acked_pending
      (hi.level a.node) (hi.acked a.node)
  · refine hother (P := fun _ e => ∀ r ∈ e.pl.recs,
      r.epoch = (state S.minISR S.log).epoch → r.hist <+: e.history)
      hi.own fun r hr hE => ?_
    exact hi.own_self hf hs hcov he' hc hpos hlead hr hE
  · refine hother (P := fun n e => ∀ r ∈ e.pl.recs, ∀ m, m ≠ n →
      m ∈ r.pending ∨ Safe prim S.minISR S.log (S.reps.after a e')
        r.epoch m r.hist) (fun n r hr m hm => ?_) fun r hr m hm => ?_
    · exact (hi.record n r hr m hm).imp_right fun hw =>
        hi.safe_act hf hs hcov he' hw
    · exact hi.record_self hf hs hcov he' hall hb hr hm
  · intro x hx hg f hfm hack hist hw
    have hsent : x.1 ∈ S.reps.sent := by
      rcases List.mem_append.1 hx with hx | hx
      · exact hi.shipped x hx
      · exact answered_sent hb hx
    -- the frame was written before the section
    obtain ⟨hist₀, hw₀⟩ := (hi.ctl.rep.sent _ hsent f hfm).wrote
    have heq := (hi.ctl.rep.lawful_step he').unique hw
      (hi.ctl.rep.wrote_mono he' hw₀)
    rw [heq]
    rcases List.mem_append.1 hx with hx | hx
    · exact hi.safe_act hf hs hcov he'
        (hi.accepted x hx hg f hfm hack hist₀ hw₀)
    · exact hi.accepted_new hs he' hc hall hb hx hg hfm hack hw₀

-- ======== one committed entry

/-- A node taken into the ISR at the primary's frontier has the
primary's history. -/
theorem SafeInv.joins (hi : SafeInv prim S.minISR S.log S.reps)
    (hlead : S.committed.primary ∈ S.committed.isr)
    {isr : List NodeID}
    (hk : S.admits (.setShardISR S.committed.epoch isr) = true)
    (hm : m ∈ isr) :
    m ∈ S.committed.isr ∨ (S.reps.eng m).poisoned = false
      ∧ (S.reps.eng m).history = (S.reps.eng S.committed.primary).history := by
  simp only [System.admits, ne_eq, not_true_eq_false, decide_false,
    Bool.false_or] at hk
  have := List.all_eq_true.1 hk m hm
  simp only [Bool.or_eq_true, Bool.and_eq_true, decide_eq_true_eq,
    Bool.not_eq_true'] at this
  refine this.imp_right fun hjoin => ⟨hjoin.1, ?_⟩
  obtain ⟨hpo, hfr⟩ := hjoin
  have h1 := hi.clean m hpo
  have h2 := hi.clean S.committed.primary (hi.member _ hlead)
  rw [hfr] at h1
  exact hi.ctl.rep.lawful.unique h1 h2

/-- A safe copy of a write that exists stays safe. -/
theorem SafeInv.safe_commit {p : Proposal}
    (hi : SafeInv prim S.minISR S.log S.reps)
    (hc : Compat prim S.minISR (S.log ++ [p.op])) (hp : ProposalOk S p)
    (hlead : S.committed.primary ∈ S.committed.isr)
    (hk : S.admits p.op = true) (hle : E ≤ S.committed.epoch)
    (hown : E = S.committed.epoch →
      hist <+: (S.reps.eng S.committed.primary).history)
    (hw : Safe prim S.minISR S.log S.reps E m hist) :
    Safe prim S.minISR (S.log ++ [p.op]) S.reps E m hist := by
  have hst : state S.minISR (S.log ++ [p.op]) = S.committed.apply p.op :=
    state_append ..
  unfold Safe
  rcases hp.commits with h | ⟨q, hop, hne, hpos, h⟩
    | ⟨isr, hop, h, hmem, hep, -⟩ <;> rw [h] at hst
  · rw [hst]
    exact hw
  · -- handed over: what counts is now the next epoch's node
    have hq : q ∈ S.committed.isr := System.admits_promotion (hop ▸ hk)
    have hnew : prim (S.committed.epoch + 1) = q := by
      have := hc.state (by rw [hst]; exact Nat.le_add_left 1 _)
      rw [hst] at this
      exact this
    rw [hst]
    refine ⟨fun hE _ => ?_, fun _ hm x hx => ?_⟩
    · have hE' : E = S.committed.epoch + 1 := hE
      omega
    · rw [List.mem_singleton.1 hx]
      rcases Nat.lt_or_eq_of_le hle with hlt | heq
      · exact hw.2 hlt hm q hq
      · rw [heq, hnew] at hm
        rw [← hm] at hq ⊢
        exact hw.1 heq hq
  · rw [hst]
    rw [hop] at hk
    refine ⟨fun hE hm => ?_, fun hE hm x hx => ?_⟩
    · rcases hi.joins hlead hk hm with hm | ⟨-, hh⟩
      · exact hw.1 hE hm
      · rw [hh]
        exact hown hE
    · rcases hi.joins hlead hk hx with hx | ⟨-, hh⟩
      · exact hw.2 hE hm x hx
      · rw [hh]
        exact hw.2 hE hm _ hlead

/-- One committed entry. -/
theorem SafeInv.commit {p : Proposal} (hi : SafeInv prim S.minISR S.log S.reps)
    (hc : Compat prim S.minISR (S.log ++ [p.op])) (hp : ProposalOk S p)
    (hpos : 1 ≤ S.committed.epoch)
    (hlead : S.committed.primary ∈ S.committed.isr)
    (hk : S.admits p.op = true) :
    SafeInv prim S.minISR (S.log ++ [p.op]) S.reps := by
  have hst : state S.minISR (S.log ++ [p.op]) = S.committed.apply p.op :=
    state_append ..
  have hprim : prim S.committed.epoch = S.committed.primary :=
    hc.of_append.state hpos
  -- a write of the committed epoch is the primary's own
  have howner : ∀ {n r}, r ∈ (S.reps.eng n).pl.recs →
      r.epoch = S.committed.epoch →
      r.hist <+: (S.reps.eng S.committed.primary).history := by
    intro n r hr hE
    have hn : prim r.epoch = n := (hi.ctl.rep.node n).own r hr
    rw [hE, hprim] at hn
    rw [hn]
    exact hi.own n r hr hE
  refine ⟨hi.ctl.commit hc hp hk, hi.level, hi.clean, hi.grouped,
    hi.shipped, fun m hm => ?_, hi.acked, fun n r hr hE => ?_,
    fun n r hr m hm => ?_, fun x hx hg f hfm hack h hw => ?_⟩
  · rcases hp.commits with h | ⟨q, hop, hne, -, h⟩
      | ⟨isr, hop, h, -, -, -⟩ <;> rw [hst, h] at hm
    · exact hi.member m hm
    · rw [List.mem_singleton.1 hm]
      exact hi.member q (System.admits_promotion (hop ▸ hk))
    · rw [hop] at hk
      rcases hi.joins hlead hk hm with hm | ⟨hpo, -⟩
      · exact hi.member m hm
      · exact hpo
  · have hle := hi.ctl.wrote_le (.inr ⟨n, r, hr, rfl, rfl, rfl⟩)
    change r.epoch ≤ S.committed.epoch at hle
    have hge := S.committed.epoch_le_apply p.op
    rw [hst] at hE
    exact hi.own n r hr (by
      show r.epoch = S.committed.epoch
      omega)
  · refine (hi.record n r hr m hm).imp_right fun hw => ?_
    exact hi.safe_commit hc hp hlead hk
      (hi.ctl.wrote_le (.inr ⟨n, r, hr, rfl, rfl, rfl⟩)) (howner hr) hw
  · refine hi.safe_commit hc hp hlead hk (hi.ctl.wrote_le hw)
      (fun hE => ?_) (hi.accepted x hx hg f hfm hack h hw)
    rcases hw with ⟨hs, -⟩ | ⟨n, r, hr, -, hre, rfl⟩
    · rw [(hi.ctl.rep.sent _ (hi.shipped x hx) f hfm).seq] at hs
      omega
    · exact howner hr (hre.trans hE)

end Rostam.Cluster
