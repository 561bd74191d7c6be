/-
Modifies clauses: which parts of the state each critical section may
write.

Every clause is an equation `e' = { e with … }` listing the written
fields, so a fact about any other field holds of `e'` by computation. A
section whose effect is already a plain record update needs none.
`step_agree` collects them: a section agrees with the state it found on
every part its label does not write. The inversions of the later
modules split only the labels that write the part they are about.
-/
import Rostam.Pbisr.Step

namespace Rostam.Pbisr

open Rostam.Lib

/-- The sections of a catch-up other than the flip. -/
def Input.isCatchup : Input → Bool
  | .growStart _ | .growHandshake _ | .growCheck | .growBackfill
  | .growAck _ | .growFallback | .takeSnapshot _ | .growShipped _
  | .growCancel => true
  | _ => false

namespace Engine

variable {e e' : Engine} {ev : Event}

variable {now : Nat}

theorem growFail_modifies (e : Engine) (g : Catchup) (err : GrowErr) :
    ∃ g', e.growFail g err = { e with grow := g' } := by
  unfold growFail
  split <;> exact ⟨_, rfl⟩

private theorem growBackfill_modifies {x : Engine × List ReplicateMsg}
    (h : e.growBackfill = some x) : ∃ g, x.1 = { e with grow := g } := by
  unfold growBackfill at h
  split at h
  · rw [Option.map_eq_some_iff] at h
    obtain ⟨r, -, rfl⟩ := h
    cases r with
    | fail err => exact growFail_modifies ..
    | caughtUp | send => exact ⟨_, rfl⟩
  · cases h

private theorem takeSnapshot_modifies {ok : Bool}
    {x : Engine × Option Snapshot} (h : e.takeSnapshot ok now = some x) :
    ∃ g, x.1 = { e with grow := g } := by
  unfold takeSnapshot at h
  repeat' split at h
  all_goals cases h
  all_goals exact ⟨_, rfl⟩

/-- A catch-up section short of the flip writes its program counter
only. -/
theorem catchup_modifies (hc : ev.input.isCatchup = true)
    (h : e.step ev = some e') : ∃ g, e' = { e with grow := g } := by
  obtain ⟨now, i⟩ := ev
  cases i <;> try cases hc
  case growBackfill =>
    simp only [step, Option.map_eq_some_iff] at h
    obtain ⟨x, hx, rfl⟩ := h
    exact growBackfill_modifies hx
  case takeSnapshot ok =>
    simp only [step, Option.map_eq_some_iff] at h
    obtain ⟨x, hx, rfl⟩ := h
    exact takeSnapshot_modifies hx
  all_goals
    simp only [step, growStart, growHandshake, growCheck, growAck,
      growFallback, growShipped] at h
    repeat' split at h
    all_goals cases h
  all_goals first | exact ⟨_, rfl⟩ | exact growFail_modifies ..

/-- An epoch adoption writes the tenure, the members and the
pipeline. -/
theorem adoptEpoch_modifies (e : Engine) (E now : Nat) :
    ∃ t mb pl, e.adoptEpoch E now
      = { e with toTenure := t, toMembers := mb, pl := pl } := by
  unfold adoptEpoch
  split
  · exact ⟨_, _, _, rfl⟩
  · exact ⟨e.toTenure, e.toMembers, e.pl, rfl⟩

theorem grantLease_modifies (e : Engine) (E expiry now : Nat) :
    ∃ t mb pl, e.grantLease E expiry now
      = { e with toTenure := t, toMembers := mb, pl := pl } := by
  unfold grantLease
  split
  · exact ⟨e.toTenure, e.toMembers, e.pl, rfl⟩
  · obtain ⟨t, mb, pl, h⟩ := adoptEpoch_modifies
      { e with leaseEpoch := E, leaseExpiry := expiry } E now
    exact ⟨t, mb, pl, h⟩

/-- A promotion also writes the log and drops the ring. -/
theorem promote_modifies (e : Engine) (E expiry now : Nat) :
    ∃ t mb pl lg b, e.promote E expiry now = { e with
          toTenure := t, toMembers := mb, pl := pl, toLog := lg
          backlog := b } := by
  unfold promote
  split
  · exact ⟨e.toTenure, e.toMembers, e.pl, e.toLog, e.backlog, rfl⟩
  · split
    · exact ⟨e.toTenure, e.toMembers, e.pl, e.toLog, e.backlog, rfl⟩
    · exact ⟨_, _, _, _, _, rfl⟩

/-- A received frame writes the log. -/
theorem receiveBody_modifies (e : Engine) (msg : ReplicateMsg) (ok : Bool) :
    ∃ lg, (e.receiveBody msg ok).1 = { e with toLog := lg } := by
  unfold receiveBody
  repeat' split
  all_goals first | exact ⟨e.toLog, rfl⟩ | exact ⟨_, rfl⟩

/-- The receive path also runs the epoch adoption. -/
theorem receiveLocked_modifies (e : Engine) (msg : ReplicateMsg)
    (ok : Bool) (now : Nat) :
    ∃ t mb pl lg, (e.receiveLocked msg ok now).1 = { e with
          toTenure := t, toMembers := mb, pl := pl, toLog := lg } := by
  unfold receiveLocked
  split
  · exact ⟨e.toTenure, e.toMembers, e.pl, e.toLog, rfl⟩
  · split
    · exact ⟨e.toTenure, e.toMembers, e.pl, e.toLog, rfl⟩
    · obtain ⟨t, mb, pl, h1⟩ := adoptEpoch_modifies e msg.epoch now
      obtain ⟨lg, h2⟩ :=
        receiveBody_modifies (e.adoptEpoch msg.epoch now) msg ok
      exact ⟨t, mb, pl, lg, by rw [h2, h1]⟩

/-- What every `receiveLocked` keeps, a whole group keeps. -/
theorem receiveRun_ind {P : Engine → Prop} {now epoch : Nat} :
    ∀ (msgs : List (ReplicateMsg × Bool)) (e : Engine) (lastOK : Nat),
      (∀ e msg ok, (msg, ok) ∈ msgs → P e → P (e.receiveLocked msg ok now).1) →
      P e → P (receiveRun now epoch e lastOK msgs).1 := by
  intro msgs
  induction msgs with
  | nil => intro e lastOK _ he; exact he
  | cons x rest ih =>
    intro e lastOK hP he
    obtain ⟨msg, ok⟩ := x
    have h1 := hP e msg ok (List.mem_cons_self ..) he
    unfold receiveRun
    simp only
    split
    · exact ih _ _ (fun e m o hm => hP e m o (List.mem_cons_of_mem _ hm)) h1
    · exact h1

/-- The group form of `receiveRun_ind`. -/
theorem receiveGroup_ind {P : Engine → Prop}
    {msgs : List (ReplicateMsg × Bool)}
    (hP : ∀ e msg ok, (msg, ok) ∈ msgs → P e →
      P (e.receiveLocked msg ok now).1)
    (he : P e) : P (e.receiveGroup msgs now).1 := by
  unfold receiveGroup
  split
  · exact he
  · split
    · exact he
    · exact receiveRun_ind _ e _ hP he

theorem receiveGroup_modifies (e : Engine)
    (msgs : List (ReplicateMsg × Bool)) (now : Nat) :
    ∃ t mb pl lg, (e.receiveGroup msgs now).1 = { e with
          toTenure := t, toMembers := mb, pl := pl, toLog := lg } := by
  refine receiveGroup_ind (P := fun x => ∃ t mb pl lg, x = { e with
          toTenure := t, toMembers := mb, pl := pl, toLog := lg })
    ?_ ⟨e.toTenure, e.toMembers, e.pl, e.toLog, rfl⟩
  rintro x msg ok - ⟨t, mb, pl, lg, rfl⟩
  obtain ⟨t', mb', pl', lg', h⟩ := receiveLocked_modifies _ msg ok now
  exact ⟨t', mb', pl', lg', h⟩

/-- A completion writes the pipeline and the peers' counters. -/
theorem completeSend_modifies (e : Engine) (peer : NodeID)
    (msg : ReplicateMsg) (res : Option AckMsg) (now : Nat) :
    ∃ pl c, e.completeSend peer msg res now
      = { e with pl := pl, toCounters := c } := by
  have hfail : ∃ pl c, completeSend.failSend e peer msg now
      = { e with pl := pl, toCounters := c } := by
    unfold completeSend.failSend
    simp only
    repeat' split
    all_goals first | exact ⟨e.pl, _, rfl⟩ | exact ⟨_, _, rfl⟩
  unfold completeSend
  split
  · split
    · unfold ackInflightLocked
      split <;> exact ⟨_, _, rfl⟩
    · exact hfail
  · exact hfail

theorem noteGroupLocked_modifies (e : Engine) (peer : NodeID)
    (firstSeq lastSeq credit : Nat) :
    ∃ c, e.noteGroupLocked peer firstSeq lastSeq credit
      = { e with toCounters := c } := by
  unfold noteGroupLocked
  simp only
  split <;> split <;> exact ⟨_, rfl⟩

theorem completeGroupSend_modifies (e : Engine) (peer : NodeID)
    (epoch firstSeq lastSeq : Nat) (res : Option AckMsg) (now : Nat) :
    ∃ pl c, e.completeGroupSend peer epoch firstSeq lastSeq res now
      = { e with pl := pl, toCounters := c } := by
  obtain ⟨c, h⟩ := noteGroupLocked_modifies e peer firstSeq lastSeq
    (creditThrough epoch firstSeq lastSeq res)
  unfold completeGroupSend
  simp only [h]
  exact ⟨_, c, rfl⟩

theorem complete_modifies {peer : NodeID} {msgs : List ReplicateMsg}
    {res : Option AckMsg}
    (h : e.complete peer msgs res now = some e') :
    ∃ pl c, e' = { e with
      pl := pl, toCounters := c
      outbox := e.outbox.erase (peer, msgs) } := by
  unfold complete at h
  split at h
  · simp only at h
    split at h <;> cases h
    · exact completeSend_modifies ..
    · exact completeGroupSend_modifies ..
  · cases h

/-- The waiters write the pipeline and what they return. -/
theorem awaitDone_modifies {i : Nat} (h : e.awaitDone i = some e') :
    ∃ ret, e' = { e with returned := ret } := by
  unfold awaitDone at h
  repeat' split at h
  all_goals cases h
  exact ⟨_, rfl⟩

theorem ctxDone_modifies {i : Nat} (h : e.ctxDone i = some e') :
    ∃ ret, e' = { e with
      returned := ret
      pl := e.pl.resolveLocked i (some .replicationTimeout) } := by
  unfold ctxDone at h
  simp only at h
  repeat' split at h
  all_goals cases h
  exact ⟨_, rfl⟩

/-- An install writes the log, the pipeline, the ring and the
members. -/
theorem installSnapshot_modifies (e : Engine) (s : Snapshot)
    (out : InstallOutcome) :
    ∃ lg mb pl b, e.installSnapshot s out
      = { e with toLog := lg, toMembers := mb, pl := pl, backlog := b } := by
  unfold installSnapshot
  split
  · exact ⟨e.toLog, e.toMembers, e.pl, e.backlog, rfl⟩
  · cases out with
    | fsmErr g => exact ⟨_, e.toMembers, e.pl, e.backlog, rfl⟩
    | commitErr | ok => exact ⟨_, _, _, _, rfl⟩

/-- The proposer's sections. -/
theorem fence_modifies (e : Engine) (primary : NodeID)
    (isr : List NodeID) (minISR : Nat) (data : Data) (now : Nat) :
    ∃ st, e.fence primary isr minISR data now = { e with stage := st } := by
  unfold fence
  split
  · exact ⟨e.stage, rfl⟩
  · exact ⟨_, rfl⟩

theorem applyLocal_modifies {ok : Bool} (h : e.applyLocal ok = some e') :
    ∃ lg st, e' = { e with toLog := lg, stage := st } := by
  unfold applyLocal at h
  repeat' split at h
  all_goals cases h
  · exact ⟨_, _, rfl⟩
  · exact ⟨e.toLog, _, rfl⟩

theorem lastSeq_le_frontier (l : Log) : l.lastSeq ≤ l.frontier.1 := by
  unfold Log.frontier
  split
  · next h => exact Nat.le_of_lt h
  · exact le_rfl

theorem lastApplied_le_frontier (l : Log) : l.lastApplied ≤ l.frontier.1 := by
  unfold Log.frontier
  split
  · exact le_rfl
  · next h => exact Nat.le_of_not_lt h

/-- The whole of a registration. The assigned seq always lies past
`lastSeq`, so both watermark halves move. -/
theorem register_cases (h : e.register now = some e') :
    ∃ E isr d pl, e.stage = .applied E isr d
      ∧ e.pl.registerInflightLocked (e.recordOf (e.nextFrame E d)
          (e.requiredPeers E isr)) = some pl
      ∧ e' = { e with
          backlog := e.backlog.append (entryOf (e.nextFrame E d))
          pl := if (e.requiredPeers E isr).isEmpty then
              pl.sweepLocked e.commitLevel (e.commitFence now)
            else pl
          lastSeq := e.frontier.1 + 1
          lastSeqEpoch := E
          epochAt := setEpochAt e.epochAt (e.frontier.1 + 1) E
          stage := .submitting (e.nextFrame E d) (e.requiredPeers E isr)
            (e.learnerShipSetLocked (e.requiredPeers E isr))
            (!(e.requiredPeers E isr).isEmpty) } := by
  unfold register at h
  split at h
  · next E isr d hst =>
    simp only [registerWith, Option.map_eq_some_iff] at h
    obtain ⟨e₁, ⟨pl, hpl, rfl⟩, h⟩ := h
    refine ⟨E, isr, d, pl, hst, hpl, ?_⟩
    have hlt : e.lastSeq < (e.nextFrame E d).seq :=
      Nat.lt_succ_of_le (lastSeq_le_frontier _)
    rw [← h]
    simp only [if_pos hlt]
    split <;> rfl
  · cases h

theorem submitPeerLocked_modifies {p : NodeID} {m : ReplicateMsg}
    {inlined : Bool} (h : e.submitPeerLocked p m inlined = some e') :
    ∃ og, e' = { e with toOutgoing := og } := by
  unfold submitPeerLocked at h
  simp only at h
  repeat' split at h
  all_goals cases h
  · exact ⟨e.toOutgoing, rfl⟩
  · exact ⟨_, rfl⟩
  · exact ⟨_, rfl⟩

theorem submitLearnerLocked_modifies (e : Engine) (p : NodeID)
    (m : ReplicateMsg) :
    ∃ og mb, e.submitLearnerLocked p m
      = { e with toOutgoing := og, toMembers := mb } := by
  unfold submitLearnerLocked
  repeat' split
  · exact ⟨e.toOutgoing, e.toMembers, rfl⟩
  · exact ⟨e.toOutgoing, e.toMembers, rfl⟩
  · exact ⟨_, e.toMembers, rfl⟩
  · exact ⟨_, _, rfl⟩

theorem submitNext_modifies {inlined : Bool}
    (h : e.submitNext inlined = some e') :
    ∃ og mb, e' = { e with toOutgoing := og, toMembers := mb } := by
  unfold submitNext at h
  split at h
  · simp only [Option.map_eq_some_iff] at h
    obtain ⟨x, hx, rfl⟩ := h
    obtain ⟨og, rfl⟩ := submitPeerLocked_modifies hx
    exact ⟨_, e.toMembers, rfl⟩
  · next l _ _ _ =>
    cases h
    obtain ⟨og, mb, hx⟩ := submitLearnerLocked_modifies e l _
    exact ⟨_, mb, by rw [hx]⟩
  · cases h

theorem submitDone_modifies (h : e.submitDone now = some e') :
    ∃ pl st, e' = { e with pl := pl, stage := st } := by
  unfold submitDone at h
  repeat' split at h
  all_goals cases h
  · exact ⟨_, _, rfl⟩
  · exact ⟨e.pl, _, rfl⟩

theorem senderTake_modifies {p : NodeID} {n : Nat}
    (h : e.senderTake p n = some e') :
    ∃ og, e' = { e with toOutgoing := og } := by
  unfold senderTake at h
  simp only at h
  repeat' split at h
  all_goals cases h
  exact ⟨_, rfl⟩

/-- The ISR reconciles and the flip. -/
theorem shrinkISR_modifies (e : Engine) (E : Nat) (newISR : List NodeID)
    (now : Nat) :
    ∃ og mb pl, e.shrinkISR E newISR now
      = { e with toOutgoing := og, toMembers := mb, pl := pl } := by
  unfold shrinkISR
  split
  · exact ⟨e.toOutgoing, e.toMembers, e.pl, rfl⟩
  · exact ⟨_, _, _, rfl⟩

theorem growISR_modifies (e : Engine) (E : Nat) (newISR : List NodeID) :
    ∃ mb, e.growISR E newISR = { e with toMembers := mb } := by
  unfold growISR
  split
  · exact ⟨e.toMembers, rfl⟩
  · exact ⟨_, rfl⟩

/-- What a flip step does: it moves its program counter, or it
installs the learner on a complete delta. -/
theorem flipLearner_cases (h : e.flipLearner now = some e') :
    (∃ g, e' = { e with grow := g }) ∨
    ∃ peer n se E k delta, e.stage = .idle
      ∧ e.grow = some ⟨peer, n, se, .flip E k⟩
      ∧ e.closed = false
      ∧ e.epoch = E ∧ e.leaseEpoch = E ∧ now < e.leaseExpiry
      ∧ u64Sub e.lastSeq k ≤ pipelineWindow
      ∧ ringDeltaLocked e.backlog (k + 1) e.lastSeq = some delta
      ∧ delta.length = u64Sub e.lastSeq k
      ∧ e' = e.flipInstall peer E k delta := by
  unfold flipLearner at h
  split at h
  · next peer n se E k hst hg =>
    split at h
    · cases h; exact .inl ⟨_, rfl⟩
    next hcl =>
    split at h
    · cases h; exact .inl ⟨_, rfl⟩
    next hfence =>
    split at h
    · cases h; exact .inl ⟨_, rfl⟩
    next hw =>
    split at h
    · cases h; exact .inl (growFail_modifies ..)
    next delta hd =>
    split at h <;> cases h
    · exact .inl ⟨_, rfl⟩
    next hlen =>
    simp only [not_or, Decidable.not_not, Nat.not_le] at hfence
    exact .inr ⟨peer, n, se, E, k, delta, hst, hg, by simpa using hcl,
      hfence.1, hfence.2.1, hfence.2.2, by omega, hd, by simpa using hlen,
      rfl⟩
  · cases h

/-- A `writeMu` section ran to its end on an idle proposer. -/
theorem locked_eq_some {x : Engine} (h : e.locked x = some e') :
    e.stage = .idle ∧ e' = x := by
  obtain ⟨hs, rfl⟩ := guarded h
  exact ⟨hs, rfl⟩

end Engine

-- ======== the parts

/-- The parts of an engine's state. -/
inductive Part where
  | identity | tenure | log | members | counters | outgoing
  | pl | backlog | closed | grow | returned
  deriving DecidableEq

/-- The parts a section may write. -/
def Input.writes : Input → List Part
  | .fence .. | .senderTake .. => [.outgoing]
  | .applyLocal _ => [.log, .outgoing]
  | .register => [.log, .pl, .backlog, .outgoing]
  | .submitNext _ | .abortLearnerCatchup _ | .reclaimOrphanLearners
  | .teardownLearners => [.outgoing, .members]
  | .submitDone => [.pl, .outgoing]
  | .awaitDone _ => [.returned]
  | .ctxDone _ => [.returned, .pl]
  | .complete .. => [.pl, .counters, .outgoing]
  | .adoptEpoch _ | .grantLease .. | .snapshotFence _ =>
    [.tenure, .members, .pl]
  | .promote .. => [.tenure, .members, .pl, .log, .backlog]
  | .receive .. | .receiveGroup _ => [.tenure, .members, .pl, .log]
  | .shrinkISR .. => [.outgoing, .members, .pl]
  | .growISR .. => [.members]
  | .flip => [.outgoing, .members, .grow]
  | .growStart _ | .growHandshake _ | .growCheck | .growBackfill
  | .growAck _ | .growFallback | .takeSnapshot _ | .growShipped _
  | .growCancel => [.grow]
  | .installSnapshot .. => [.log, .members, .pl, .backlog]
  | .shutdown => [.closed]

namespace Engine

variable {e e' : Engine} {ev : Event}

/-- The two states agree on one part. -/
def Agree (e e' : Engine) : Part → Prop
  | .identity => e'.toIdentity = e.toIdentity
  | .tenure => e'.toTenure = e.toTenure
  | .log => e'.toLog = e.toLog
  | .members => e'.toMembers = e.toMembers
  | .counters => e'.toCounters = e.toCounters
  | .outgoing => e'.toOutgoing = e.toOutgoing
  | .pl => e'.pl = e.pl
  | .backlog => e'.backlog = e.backlog
  | .closed => e'.closed = e.closed
  | .grow => e'.grow = e.grow
  | .returned => e'.returned = e.returned

/-- A section agrees with the state it found on what it does not
write. -/
theorem step_agree (h : e.step ev = some e') (p : Part)
    (hp : p ∉ ev.input.writes) : e.Agree e' p := by
  by_cases hc : ev.input.isCatchup = true
  · have hw : ev.input.writes = [.grow] := by
      obtain ⟨now, i⟩ := ev
      cases i <;> first | rfl | cases hc
    obtain ⟨g, rfl⟩ := catchup_modifies hc h
    rw [hw] at hp
    cases p <;> first | rfl | simp at hp
  obtain ⟨now, i⟩ := ev
  cases i <;> try exact absurd rfl hc
  case' fence primary isr minISR data =>
    obtain ⟨-, rfl⟩ := locked_eq_some h
    obtain ⟨st, he⟩ := fence_modifies e primary isr minISR data now
    rw [he]
  case' applyLocal ok =>
    obtain ⟨lg, st, rfl⟩ := applyLocal_modifies h
  case' register =>
    obtain ⟨E, isr, d, pl, -, -, rfl⟩ := register_cases h
  case' submitNext inlined =>
    obtain ⟨og, mb, rfl⟩ := submitNext_modifies h
  case' submitDone =>
    obtain ⟨pl, st, rfl⟩ := submitDone_modifies h
  case' awaitDone i =>
    obtain ⟨ret, rfl⟩ := awaitDone_modifies h
  case' ctxDone i =>
    obtain ⟨ret, rfl⟩ := ctxDone_modifies h
  case' senderTake peer n =>
    obtain ⟨og, rfl⟩ := senderTake_modifies h
  case' complete peer msgs res =>
    obtain ⟨pl, c, rfl⟩ := complete_modifies h
  case' adoptEpoch E =>
    injection h with h
    obtain ⟨t, mb, pl, he⟩ := adoptEpoch_modifies e E now
    rw [← h, he]
  case' grantLease E expiry =>
    injection h with h
    obtain ⟨t, mb, pl, he⟩ := grantLease_modifies e E expiry now
    rw [← h, he]
  case' promote E expiry =>
    injection h with h
    obtain ⟨t, mb, pl, lg, b, he⟩ := promote_modifies e E expiry now
    rw [← h, he]
  case' receive msg ok =>
    injection h with h
    obtain ⟨t, mb, pl, lg, he⟩ := receiveLocked_modifies e msg ok now
    rw [← h, he]
  case' receiveGroup msgs =>
    injection h with h
    obtain ⟨t, mb, pl, lg, he⟩ := receiveGroup_modifies e msgs now
    rw [← h, he]
  case' shrinkISR E newISR =>
    obtain ⟨-, rfl⟩ := locked_eq_some h
    obtain ⟨og, mb, pl, he⟩ := shrinkISR_modifies e E newISR now
    rw [he]
  case' growISR E newISR =>
    injection h with h
    obtain ⟨mb, he⟩ := growISR_modifies e E newISR
    rw [← h, he]
  case' flip =>
    rcases flipLearner_cases h with ⟨g, rfl⟩ | ⟨peer, n, se, E, k, delta,
      -, -, -, -, -, -, -, -, -, rfl⟩
  case' snapshotFence E =>
    injection h with h
    obtain ⟨t, mb, pl, he⟩ := adoptEpoch_modifies e E now
    rw [← h, snapshotFence, he]
  case' installSnapshot s out =>
    obtain ⟨-, rfl⟩ := locked_eq_some h
    obtain ⟨lg, mb, pl, b, he⟩ := installSnapshot_modifies e s out
    rw [he]
  case' abortLearnerCatchup | reclaimOrphanLearners | teardownLearners
    | shutdown => obtain ⟨-, rfl⟩ := locked_eq_some h
  -- what is left of each label is one record update
  all_goals cases p <;> first | rfl | simp [Input.writes] at hp

/-- Nothing writes the identity. -/
theorem step_identity (h : e.step ev = some e') :
    e'.toIdentity = e.toIdentity :=
  step_agree h .identity (by
    obtain ⟨now, i⟩ := ev
    cases i <;> simp [Input.writes])

end Engine

end Rostam.Pbisr
