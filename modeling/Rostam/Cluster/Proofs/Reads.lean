/-
What the drivers hold, and what they submit.

Nothing a driver keeps goes stale by itself: a read is the state of a
prefix of the committed log, and the log only grows (`Grows`). A tick
past its epoch check knows that its engine has reached the epoch it
read, and a tick past its flip that the flip came after the read. So
every submitted ISR is made of members the submitter read and of
members flipped since (`ProposalOk`). All of this holds on every run.
-/
import Rostam.Cluster.Proofs.Control
import Rostam.Pbisr.Proofs.Tenure

namespace Rostam.Cluster

open Rostam.Lib Rostam.Pbisr

variable {S S' : System} {l : Label} {n m : NodeID}

-- ======== the frame

/-- What only grows. -/
structure Grows (S S' : System) : Prop where
  minISR : S'.minISR = S.minISR
  log : S.log <+: S'.log
  flips : ∀ x ∈ S.flips, x ∈ S'.flips
  epoch : ∀ n, (S.reps.eng n).epoch ≤ (S'.reps.eng n).epoch

/-- A section runs at most one engine section, then moves the rest. -/
theorem System.step_cases (h : S.step l = some S') :
    S.enabled l = true
      ∧ (S.act l = none ∧ S' = S.next l
        ∨ ∃ a R, S.act l = some a ∧ S.reps.step a = some R
          ∧ S' = { S.next l with reps := R }) := by
  unfold System.step at h
  split at h
  · next he =>
    refine ⟨he, ?_⟩
    split at h
    · next ha => exact .inl ⟨ha, (Option.some.inj h).symm⟩
    · next a ha =>
      obtain ⟨R, hR, rfl⟩ := Option.map_eq_some_iff.1 h
      exact .inr ⟨a, R, ha, hR, rfl⟩
  · cases h

/-- Outside the engines and the log: `T` is `S` with other driver
state. -/
structure Frame (S T : System) : Prop where
  minISR : T.minISR = S.minISR
  reps : T.reps = S.reps
  log : T.log = S.log
  flips : ∀ x ∈ S.flips, x ∈ T.flips

theorem Frame.grows {T : System} (h : Frame S T) : Grows S T :=
  ⟨h.minISR, h.log ▸ List.prefix_rfl, h.flips, fun n => by rw [h.reps]⟩

theorem noteFlip_frame (S : System) (a : Act) : Frame S (S.noteFlip a) := by
  unfold System.noteFlip
  repeat' split
  all_goals refine ⟨rfl, rfl, rfl, fun x hx => ?_⟩
  all_goals first
    | exact hx
    | exact List.mem_append_left _ hx

/-- Only a commit moves the log. -/
theorem next_frame (S : System) (hl : ∀ i, l ≠ .commit i) :
    Frame S (S.next l) := by
  cases l with
  | engine a => exact noteFlip_frame S a
  | commit i => exact absurd rfl (hl i)
  | _ =>
    simp only [System.next, System.shrinkReconcile,
      System.growReconcile, System.growConfirm]
    repeat' split
    all_goals exact ⟨rfl, rfl, rfl, fun _ hx => hx⟩

/-- A commit moves a submitted entry into the log. -/
theorem commit_eq {i : Nat} (h : S.step (.commit i) = some S') :
    ∃ p, S.proposed[i]? = some p
      ∧ S' = { S with
        log := S.log ++ [p.op], proposed := S.proposed.eraseIdx i } := by
  obtain ⟨he, ⟨-, rfl⟩ | ⟨a, R, ha, -⟩⟩ := System.step_cases h
  · have hlt : i < S.proposed.length := of_decide_eq_true he
    refine ⟨S.proposed[i], List.getElem?_eq_getElem hlt, ?_⟩
    simp only [System.next, List.getElem?_eq_getElem hlt]
  · cases ha

/-- An engine section moves one engine, whose epoch does not fall. -/
theorem replicas_epoch_le {R R' : Replicas} {a : Act}
    (h : R.step a = some R') (n : NodeID) :
    (R.eng n).epoch ≤ (R'.eng n).epoch := by
  unfold Replicas.step at h
  split at h
  · obtain ⟨e', he, rfl⟩ := Option.map_eq_some_iff.1 h
    by_cases hn : n = a.node
    · subst hn
      rw [show (R.after a e').eng a.node = e' from if_pos rfl]
      exact Engine.step_epoch_le he
    · rw [show (R.after a e').eng n = R.eng n from if_neg hn]
  · cases h

/-- No step takes anything back. -/
theorem step_grows (h : S.step l = some S') : Grows S S' := by
  by_cases hl : ∃ i, l = .commit i
  · obtain ⟨i, rfl⟩ := hl
    obtain ⟨p, -, rfl⟩ := commit_eq h
    exact ⟨rfl, List.prefix_append _ _, fun _ hx => hx,
      fun n => le_rfl⟩
  · have hf := next_frame S fun i hi => hl ⟨i, hi⟩
    obtain ⟨-, ⟨-, rfl⟩ | ⟨a, R, -, hR, rfl⟩⟩ := System.step_cases h
    · exact hf.grows
    · exact ⟨hf.minISR, hf.log ▸ List.prefix_rfl, hf.flips,
        fun n => replicas_epoch_le hR n⟩

-- ======== the reads

/-- A read of node `n`: the state of a prefix of the log, in which the
node is primary. -/
structure ReadOk (S : System) (n : NodeID) (r : Read) : Prop where
  le : r.upTo ≤ S.log.length
  shard : r.shard = MetaLog.state S.minISR (S.log.take r.upTo)
  primary : r.shard.primary = n
  named : n ≠ ""

/-- Node `n` flipped `m` in epoch `E` or later, when the log had `k`
entries or more. -/
def FlippedSince (S : System) (n m : NodeID) (E k : Nat) : Prop :=
  ∃ f ∈ S.flips, f.node = n ∧ f.target = m ∧ E ≤ f.epoch ∧ k ≤ f.len

/-- The engine has reached the epoch that was read. -/
def Current (S : System) (n : NodeID) (r : Read) : Prop :=
  ReadOk S n r ∧ r.shard.epoch ≤ (S.reps.eng n).epoch

def ShrinkPcOk (S : System) (n : NodeID) : ShrinkPc → Prop
  | .idle => True
  | .read r => ReadOk S n r
  | .narrowing r | .reconciled r => Current S n r

def GrowPcOk (S : System) (n : NodeID) : GrowPc → Prop
  | .idle => True
  | .read r => ReadOk S n r
  | .widening r | .settled r | .fresh r | .compensating r | .growing r
  | .catching r _ => Current S n r
  | .flipped r t | .submitted r t =>
    Current S n r ∧ FlippedSince S n t r.shard.epoch r.upTo

/-- A submitted entry. An ISR is the submitter's own epoch's, contains
the submitter, and every member was read or flipped since the read; a
promotion opens no epoch past the one after that it was decided on, for
another node. -/
def ProposalOk (S : System) (p : Proposal) : Prop :=
  p.upTo ≤ S.log.length
    ∧ let st := MetaLog.state S.minISR (S.log.take p.upTo)
      st.primary ≠ ""
        ∧ match p.op with
          | .setShardISR E isr => E = st.epoch ∧ st.primary ∈ isr
              ∧ E ≤ (S.reps.eng st.primary).epoch
              ∧ ∀ m ∈ isr, m ∈ st.isr
                ∨ FlippedSince S st.primary m st.epoch p.upTo
          | .setShardEpoch E q isr =>
            E ≤ st.epoch + 1 ∧ q ≠ st.primary ∧ isr = []

/-- What was in the log stays where it was. -/
theorem Grows.take (h : Grows S S') {k : Nat} (hk : k ≤ S.log.length) :
    S'.log.take k = S.log.take k := by
  obtain ⟨t, ht⟩ := h.log
  rw [← ht, List.take_append_of_le_length hk]

/-- A read stays one of a prefix of the log. -/
theorem ReadOk.mono {r : Read} (h : ReadOk S n r) (hg : Grows S S') :
    ReadOk S' n r := { h with
  le := Nat.le_trans h.le hg.log.length_le
  shard := by rw [hg.minISR, hg.take h.le]; exact h.shard }

theorem Current.mono {r : Read} (h : Current S n r) (hg : Grows S S') :
    Current S' n r :=
  ⟨h.1.mono hg, Nat.le_trans h.2 (hg.epoch n)⟩

theorem FlippedSince.mono {E k : Nat} (h : FlippedSince S n m E k)
    (hg : Grows S S') : FlippedSince S' n m E k := by
  obtain ⟨f, hf, h⟩ := h
  exact ⟨f, hg.flips _ hf, h⟩

theorem ShrinkPcOk.mono {pc : ShrinkPc} (h : ShrinkPcOk S n pc)
    (hg : Grows S S') : ShrinkPcOk S' n pc := by
  cases pc with
  | idle => trivial
  | read r => exact ReadOk.mono h hg
  | narrowing r => exact Current.mono h hg
  | reconciled r => exact Current.mono h hg

theorem GrowPcOk.mono {pc : GrowPc} (h : GrowPcOk S n pc)
    (hg : Grows S S') : GrowPcOk S' n pc := by
  cases pc with
  | idle => trivial
  | read r => exact ReadOk.mono h hg
  | widening r => exact Current.mono h hg
  | settled r => exact Current.mono h hg
  | fresh r => exact Current.mono h hg
  | compensating r => exact Current.mono h hg
  | growing r => exact Current.mono h hg
  | catching r t => exact Current.mono h hg
  | flipped r t => exact ⟨Current.mono h.1 hg, h.2.mono hg⟩
  | submitted r t => exact ⟨Current.mono h.1 hg, h.2.mono hg⟩

/-- A submitted entry stays as it was decided. -/
theorem ProposalOk.mono {p : Proposal} (h : ProposalOk S p)
    (hg : Grows S S') : ProposalOk S' p := by
  obtain ⟨hle, hst⟩ := h
  refine ⟨Nat.le_trans hle hg.log.length_le, ?_⟩
  rw [hg.minISR, hg.take hle]
  refine ⟨hst.1, ?_⟩
  have h2 := hst.2
  cases hop : p.op with
  | setShardEpoch E q isr =>
    rw [hop] at h2
    exact h2
  | setShardISR E isr =>
    rw [hop] at h2
    exact ⟨h2.1, h2.2.1, Nat.le_trans h2.2.2.1 (hg.epoch _),
      fun m hm => (h2.2.2.2 m hm).imp_right fun hf => hf.mono hg⟩

/-- What committing a submitted entry can do: nothing, hand the shard
over to another node for the next epoch, or replace the ISR by one that
contains the primary. -/
theorem ProposalOk.commits {p : Proposal} (h : ProposalOk S p) :
    S.committed.apply p.op = S.committed
    ∨ (∃ q, p.op = .setShardEpoch (S.committed.epoch + 1) q []
        ∧ q ≠ S.committed.primary ∧ 1 ≤ S.committed.epoch
        ∧ S.committed.apply p.op = { S.committed with
            epoch := S.committed.epoch + 1, primary := q, isr := [q] })
    ∨ ∃ isr, p.op = .setShardISR S.committed.epoch isr
        ∧ S.committed.apply p.op = { S.committed with isr := isr }
        ∧ S.committed.primary ∈ isr
        ∧ S.committed.epoch ≤ (S.reps.eng S.committed.primary).epoch
        ∧ ∀ m ∈ isr, m ∈ (MetaLog.state S.minISR (S.log.take p.upTo)).isr
          ∨ FlippedSince S S.committed.primary m S.committed.epoch
            p.upTo := by
  obtain ⟨-, hnamed, hok⟩ := h
  have hpos := MetaLog.epoch_pos_of_primary hnamed
  have hle := MetaLog.epoch_take_le S.minISR S.log p.upTo
  rcases S.committed.apply_cases p.op with h | ⟨E, q, isr, hop, hlt, h⟩
    | ⟨isr, hop, -, h⟩
  · exact .inl h
  · rw [hop] at hok
    obtain ⟨hE, hne, rfl⟩ := hok
    have hlt' : (MetaLog.state S.minISR S.log).epoch < E := hlt
    have hE' : E = S.committed.epoch + 1 := by
      show E = (MetaLog.state S.minISR S.log).epoch + 1
      omega
    have heq : (MetaLog.state S.minISR (S.log.take p.upTo)).epoch
        = (MetaLog.state S.minISR S.log).epoch := by omega
    rw [MetaLog.primary_of_epoch hpos heq] at hne
    refine .inr (.inl ⟨q, by rw [hop, hE'], hne, ?_, ?_⟩)
    · exact Nat.le_trans hpos hle
    · rw [h, hE', seedISRForEpoch, if_neg (by simp)]
  · rw [hop] at hok
    obtain ⟨hE, hmem, hep, hisr⟩ := hok
    rw [MetaLog.primary_of_epoch hpos hE.symm, ← hE] at hisr
    rw [MetaLog.primary_of_epoch hpos hE.symm] at hmem hep
    exact .inr (.inr ⟨isr, hop, h, hmem, hep, hisr⟩)

-- ======== the invariant

/-- What the drivers know, in every reachable state. -/
structure DriverInv (S : System) : Prop where
  view : ∀ n, S.view n ≤ S.log.length
  member : ∀ k, 1 ≤ (MetaLog.state S.minISR (S.log.take k)).epoch →
    (MetaLog.state S.minISR (S.log.take k)).primary
      ∈ (MetaLog.state S.minISR (S.log.take k)).isr
  shrink : ∀ n, ShrinkPcOk S n (S.shrink n)
  grow : ∀ n, GrowPcOk S n (S.grow n)
  proposed : ∀ p ∈ S.proposed, ProposalOk S p

namespace DriverInv

variable {r : Read}

/-- The reader is in the ISR it reads. -/
theorem member_read (hi : DriverInv S) (hr : ReadOk S n r) :
    n ∈ r.shard.isr := by
  have h := hi.member r.upTo (MetaLog.epoch_pos_of_primary
    (by rw [← hr.shard, hr.primary]; exact hr.named))
  rw [← hr.shard, hr.primary] at h
  exact h

/-- A node that is primary in its own view reads that view. -/
theorem readOk_view (hi : DriverInv S) (hp : (S.viewOf n).primary = n)
    (hn : n ≠ "") : ReadOk S n ⟨S.viewOf n, S.view n⟩ :=
  ⟨hi.view n, rfl, hp, hn⟩

theorem setShrink {pc : ShrinkPc} (hi : DriverInv S)
    (h : ShrinkPcOk S n pc) : DriverInv (S.setShrink n pc) := { hi with
  shrink m := by
    show ShrinkPcOk _ m (if m = n then pc else S.shrink m)
    have hg : Grows S (S.setShrink n pc) :=
      Frame.grows ⟨rfl, rfl, rfl, fun _ hx => hx⟩
    split
    · next hm => exact hm ▸ h.mono hg
    · exact (hi.shrink m).mono hg
  grow m := (hi.grow m).mono (Frame.grows ⟨rfl, rfl, rfl, fun _ hx => hx⟩)
  proposed p hp :=
    (hi.proposed p hp).mono (Frame.grows ⟨rfl, rfl, rfl, fun _ hx => hx⟩) }

theorem setGrow {pc : GrowPc} (hi : DriverInv S)
    (h : GrowPcOk S n pc) : DriverInv (S.setGrow n pc) := { hi with
  shrink m :=
    (hi.shrink m).mono (Frame.grows ⟨rfl, rfl, rfl, fun _ hx => hx⟩)
  grow m := by
    show GrowPcOk _ m (if m = n then pc else S.grow m)
    have hg : Grows S (S.setGrow n pc) :=
      Frame.grows ⟨rfl, rfl, rfl, fun _ hx => hx⟩
    split
    · next hm => exact hm ▸ h.mono hg
    · exact (hi.grow m).mono hg
  proposed p hp :=
    (hi.proposed p hp).mono (Frame.grows ⟨rfl, rfl, rfl, fun _ hx => hx⟩) }

/-- Steps that leave the drivers and the log alone. -/
theorem of_frame {T : System} (hi : DriverInv S) (hg : Grows S T)
    (hlog : T.log = S.log) (hv : T.view = S.view)
    (hs : T.shrink = S.shrink) (hgr : T.grow = S.grow)
    (hp : T.proposed = S.proposed) : DriverInv T where
  view n := by rw [hv, hlog]; exact hi.view n
  member k := by rw [hg.minISR, hlog]; exact hi.member k
  shrink n := by rw [hs]; exact (hi.shrink n).mono hg
  grow n := by rw [hgr]; exact (hi.grow n).mono hg
  proposed p h := by rw [hp] at h; exact (hi.proposed p h).mono hg

theorem setBaseline (hi : DriverInv S) (r : Read) :
    DriverInv (S.setBaseline n r) :=
  hi.of_frame (Frame.grows ⟨rfl, rfl, rfl, fun _ hx => hx⟩)
    rfl rfl rfl rfl rfl

theorem append {ps : List Proposal} (hi : DriverInv S)
    (h : ∀ p ∈ ps, ProposalOk S p) :
    DriverInv { S with proposed := S.proposed ++ ps } := { hi with
  shrink m :=
    (hi.shrink m).mono (Frame.grows ⟨rfl, rfl, rfl, fun _ hx => hx⟩)
  grow m := (hi.grow m).mono (Frame.grows ⟨rfl, rfl, rfl, fun _ hx => hx⟩)
  proposed p hp := by
    have hok : ProposalOk S p := by
      rcases List.mem_append.1 hp with hp | hp
      · exact hi.proposed p hp
      · exact h p hp
    exact hok.mono (Frame.grows ⟨rfl, rfl, rfl, fun _ hx => hx⟩) }

/-- A primary may submit any ISR made of itself, of members it read and
of members flipped since. -/
theorem submit {isr : List NodeID} (hi : DriverInv S)
    (hr : Current S n r) (hn : n ∈ isr)
    (hisr : ∀ m ∈ isr, m ∈ r.shard.isr
      ∨ FlippedSince S n m r.shard.epoch r.upTo) :
    DriverInv (S.submit r isr) := by
  refine hi.append fun p hp => ?_
  rw [List.mem_singleton.1 hp]
  refine ⟨hr.1.le, ?_⟩
  dsimp only
  rw [← hr.1.shard, hr.1.primary]
  exact ⟨hr.1.named, rfl, hn, hr.2, hisr⟩

-- ======== one step

/-- A shrink goes on in the epoch it read, or not at all. -/
theorem shrinkReconcile (hi : DriverInv S)
    (hr : ReadOk S n r) : DriverInv (S.shrinkReconcile n r) := by
  unfold System.shrinkReconcile
  split
  · exact hi.setShrink trivial
  · next hE =>
    have hcur : Current S n r :=
      ⟨hr, Nat.le_of_eq (Decidable.not_not.1 hE).symm⟩
    have hbase : ShrinkPcOk (S.setBaseline n r) n (.reconciled r) :=
      Current.mono hcur (Frame.grows ⟨rfl, rfl, rfl, fun _ hx => hx⟩)
    split
    · exact (hi.setBaseline r).setShrink hbase
    · split
      · exact (hi.setBaseline r).setShrink hbase
      · split
        · exact hi.setShrink hcur
        · exact hi.setShrink hcur

theorem growReconcile (hi : DriverInv S)
    (hr : ReadOk S n r) : DriverInv (S.growReconcile n r) := by
  unfold System.growReconcile
  split
  · exact hi.setGrow trivial
  · next hE =>
    have hcur : Current S n r :=
      ⟨hr, Nat.le_of_eq (Decidable.not_not.1 hE).symm⟩
    have hbase : GrowPcOk (S.setBaseline n r) n (.settled r) :=
      Current.mono hcur (Frame.grows ⟨rfl, rfl, rfl, fun _ hx => hx⟩)
    split
    · exact (hi.setBaseline r).setGrow hbase
    · split
      · exact (hi.setBaseline r).setGrow hbase
      · split
        · exact hi.setGrow hcur
        · exact hi.setGrow hcur

/-- Behind the barrier the tick goes on with what it reads there. -/
theorem growConfirm (hi : DriverInv S)
    (hr : Current S n r) : DriverInv (S.growConfirm n r) := by
  unfold System.growConfirm
  dsimp only
  split
  · exact hi.setGrow trivial
  · next hc =>
    rw [not_or, not_or, Decidable.not_not, Decidable.not_not] at hc
    have hcur : Current S n ⟨S.viewOf n, S.view n⟩ :=
      ⟨hi.readOk_view hc.1 hr.1.named, Nat.le_of_eq hc.2.1.symm⟩
    split
    · exact hi.setGrow hcur
    · exact hi.setGrow hcur

/-- The flip a tick waits for comes after the tick's read. -/
theorem noteFlip (hi : DriverInv S) (a : Act) : DriverInv (S.noteFlip a) := by
  unfold System.noteFlip
  split
  · next peer _ _ =>
    have hg : Grows S { S with flips := S.flips ++ [⟨a.node, peer,
        (S.reps.eng a.node).epoch, S.log.length⟩] } :=
      Frame.grows ⟨rfl, rfl, rfl, fun _ hx => List.mem_append_left _ hx⟩
    have hi' := hi.of_frame hg rfl rfl rfl rfl rfl
    split
    · next r target hpc =>
      have hcat := hi.grow a.node
      rw [hpc] at hcat
      split
      · next ht =>
        exact hi'.setGrow ⟨Current.mono hcat hg, _,
          List.mem_append_right _ (List.mem_singleton.2 rfl),
          rfl, ht.symm, hcat.2, hcat.1.le⟩
      · exact hi'
    · exact hi'
  · exact hi

/-- A promotion is decided on the ticker's own view. -/
theorem failover (hi : DriverInv S) {nowNs timeout last : Int}
    {reach : List NodeID} {p : PbPromotion}
    (hp : p ∈ decidePBPromotions [System.liveness (S.viewOf n) last]
      nowNs timeout (some (S.highWater reach))) :
    ProposalOk S ⟨.setShardEpoch p.newEpoch p.newPrimary [], S.view n⟩ := by
  obtain ⟨s, hs, hE, hprim, -, hne, -⟩ := mem_decidePBPromotions hp
  rw [List.mem_singleton.1 hs] at hE hprim hne
  exact ⟨hi.view n, hprim, hE, hne, rfl⟩

/-- A node sees one more entry of the log. -/
theorem next_advance (hi : DriverInv S) (hlt : S.view n < S.log.length) :
    DriverInv (S.next (.advance n)) := by
  have hg : Grows S (S.next (.advance n)) :=
    (next_frame S fun _ h => by cases h).grows
  refine ⟨fun m => ?_, hi.member, fun m => (hi.shrink m).mono hg,
    fun m => (hi.grow m).mono hg, fun p hp => (hi.proposed p hp).mono hg⟩
  show (if m = n then S.view n + 1 else S.view m) ≤ S.log.length
  have := hi.view m
  split <;> omega

/-- A shrink round begins with a read. -/
theorem next_shrinkRead (hi : DriverInv S) (hn : n ≠ "") :
    DriverInv (S.next (.shrinkRead n)) := by
  simp only [System.next]
  split
  · exact hi.of_frame (Frame.grows ⟨rfl, rfl, rfl, fun _ hx => hx⟩) rfl rfl
      rfl rfl rfl
  · next hp =>
    exact hi.setShrink (hi.readOk_view (Decidable.not_not.1 hp) hn)

/-- The narrower ISR is the new baseline. -/
theorem next_shrinkApply (hi : DriverInv S) (now : Nat) :
    DriverInv (S.next (.shrinkApply n now)) := by
  have hpc := hi.shrink n
  simp only [System.next]
  split
  · next r hs =>
    rw [hs] at hpc
    exact (hi.setBaseline r).setShrink (Current.mono hpc
      (Frame.grows ⟨rfl, rfl, rfl, fun _ hx => hx⟩))
  · exact hi

/-- A shrink submits members it read, itself among them. -/
theorem next_shrinkRequest (hi : DriverInv S) (k : Nat) :
    DriverInv (S.next (.shrinkRequest n k)) := by
  have hpc := hi.shrink n
  simp only [System.next]
  split
  · next r hs =>
    rw [hs] at hpc
    split
    · next newISR hd =>
      obtain ⟨hsub, hself⟩ := decidePBShrink_some hd
      exact (hi.submit hpc (hself (hi.member_read hpc.1))
        fun m hm => .inl (hsub m hm)).setShrink trivial
    · exact hi.setShrink trivial
  · exact hi

theorem next_growApply (hi : DriverInv S) :
    DriverInv (S.next (.growApply n)) := by
  have hpc := hi.grow n
  simp only [System.next]
  split
  · next r hs =>
    rw [hs] at hpc
    exact (hi.setBaseline r).setGrow (Current.mono hpc
      (Frame.grows ⟨rfl, rfl, rfl, fun _ hx => hx⟩))
  · exact hi

/-- A compensation submits what it read without one member. -/
theorem next_growCompensate {m : NodeID} (hi : DriverInv S)
    (he : S.enabled (.growCompensate n m) = true) :
    DriverInv (S.next (.growCompensate n m)) := by
  have hpc := hi.grow n
  simp only [System.next]
  split
  · next r hs =>
    rw [hs] at hpc
    simp only [System.enabled, hs, Bool.and_eq_true, decide_eq_true_eq] at he
    exact hi.submit hpc (List.mem_filter.2 ⟨hi.member_read hpc.1,
      decide_eq_true he.1.2.symm⟩) fun x hx => .inl (List.mem_filter.1 hx).1
  · exact hi

/-- A grow submits what it read and the peer it saw flipped. -/
theorem next_growSubmit (hi : DriverInv S) :
    DriverInv (S.next (.growSubmit n)) := by
  have hpc := hi.grow n
  simp only [System.next]
  split
  · next r target hs =>
    rw [hs] at hpc
    split
    · have hisr : ∀ m ∈ r.shard.isr ++ [target], m ∈ r.shard.isr
          ∨ FlippedSince S n m r.shard.epoch r.upTo := by
        intro m hm
        rcases List.mem_append.1 hm with hm | hm
        · exact .inl hm
        · exact .inr (List.mem_singleton.1 hm ▸ hpc.2)
      have hself := List.mem_append_left [target] (hi.member_read hpc.1.1)
      exact (hi.submit hpc.1 hself hisr).setGrow (GrowPcOk.mono hpc
        (Frame.grows ⟨rfl, rfl, rfl, fun _ hx => hx⟩))
    · exact hi.setGrow hpc.1
  · exact hi

theorem next_growSubmitted (hi : DriverInv S) (ok : Bool) :
    DriverInv (S.next (.growSubmitted n ok)) := by
  have hpc := hi.grow n
  simp only [System.next]
  split
  · next r target hs =>
    rw [hs] at hpc
    split
    · exact hi.setGrow trivial
    · exact hi.setGrow hpc.1
  · exact hi

/-- What the drivers do keeps what they know. -/
theorem next (hi : DriverInv S) (he : S.enabled l = true)
    (hl : ∀ i, l ≠ .commit i) : DriverInv (S.next l) := by
  cases l with
  | engine a => exact hi.noteFlip a
  | commit i => exact absurd rfl (hl i)
  | advance n => exact hi.next_advance (of_decide_eq_true he)
  | failover n nowNs timeout last reach =>
    refine hi.append fun p hp => ?_
    obtain ⟨q, hq, rfl⟩ := List.mem_map.1 hp
    exact hi.failover hq
  | shrinkRead n =>
    simp only [System.enabled, Bool.and_eq_true, decide_eq_true_eq] at he
    exact hi.next_shrinkRead he.2
  | shrinkApply n now => exact hi.next_shrinkApply now
  | shrinkRequest n k => exact hi.next_shrinkRequest k
  | growRead n =>
    simp only [System.enabled, Bool.and_eq_true, decide_eq_true_eq] at he
    exact hi.setGrow (hi.readOk_view he.2 he.1.2)
  | growApply n => exact hi.next_growApply
  | growCompensate n m => exact hi.next_growCompensate he
  | growSubmit n => exact hi.next_growSubmit
  | growSubmitted n ok => exact hi.next_growSubmitted ok
  | growDone n => exact hi.setGrow trivial
  -- the other steps move one driver's counter on, with what it read
  | shrinkReconcile n =>
    have hpc := hi.shrink n
    simp only [System.next]
    split
    · next r hs => exact hi.shrinkReconcile (by rw [hs] at hpc; exact hpc)
    · exact hi
  | growReconcile n =>
    have hpc := hi.grow n
    simp only [System.next]
    split
    · next r hs => exact hi.growReconcile (by rw [hs] at hpc; exact hpc)
    · exact hi
  | growConfirm n =>
    have hpc := hi.grow n
    simp only [System.next]
    split
    · next r hs => exact hi.growConfirm (by rw [hs] at hpc; exact hpc)
    · exact hi
  | growBarrier n | growCatchup n target | growGiveUp n =>
    have hpc := hi.grow n
    simp only [System.next]
    split
    · next hs => exact hi.setGrow (by rw [hs] at hpc; exact hpc)
    · exact hi

/-- Committing a submitted entry keeps every primary in its ISR. -/
theorem commit {p : Proposal} {i : Nat} (hi : DriverInv S)
    (hp : S.proposed[i]? = some p) :
    DriverInv { S with
      log := S.log ++ [p.op], proposed := S.proposed.eraseIdx i } := by
  have hg : Grows S { S with
      log := S.log ++ [p.op], proposed := S.proposed.eraseIdx i } :=
    ⟨rfl, List.prefix_append _ _, fun _ hx => hx, fun _ => le_rfl⟩
  refine ⟨fun n => Nat.le_trans (hi.view n) hg.log.length_le, fun k => ?_,
    fun n => (hi.shrink n).mono hg, fun n => (hi.grow n).mono hg,
    fun q hq => (hi.proposed q (List.mem_of_mem_eraseIdx hq)).mono hg⟩
  by_cases hk : k ≤ S.log.length
  · rw [List.take_append_of_le_length hk]
    exact hi.member k
  · rw [List.take_of_length_le (by simp; omega), MetaLog.state_append]
    have hold := hi.member S.log.length
    rw [List.take_length] at hold
    rcases (MetaLog.state S.minISR S.log).apply_cases p.op with h
      | ⟨E, q, isr, hop, -, h⟩ | ⟨isr, hop, -, h⟩
    · rw [h]
      exact hold
    · rw [h]
      intro _
      exact mem_seedISRForEpoch q isr
    · rw [h]
      intro _
      obtain ⟨-, hnamed, hok⟩ := hi.proposed p (List.mem_of_getElem? hp)
      rw [hop] at hok
      have hpos := MetaLog.epoch_pos_of_primary hnamed
      rw [← MetaLog.primary_of_epoch hpos hok.1.symm]
      exact hok.2.1

end DriverInv

theorem driverInv_seeded (c : Config) (minISR : Nat)
    (placement : List NodeID) (primary : NodeID) (isr : List NodeID) :
    DriverInv (.seeded c minISR placement primary isr) where
  view _ := Nat.zero_le _
  member k := by
    intro hpos
    cases k with
    | zero => exact absurd hpos (Nat.not_succ_le_zero 0)
    | succ k =>
      have hk : (System.seeded c minISR placement primary isr).log.length
          ≤ k + 1 := Nat.le_add_left 1 k
      rw [List.take_of_length_le hk]
      exact mem_seedISRForEpoch primary isr
  shrink _ := trivial
  grow _ := trivial
  proposed p hp := by cases hp

/-- Every step of the system keeps what the drivers know. -/
theorem step_driverInv (hi : DriverInv S) (h : S.step l = some S') :
    DriverInv S' := by
  by_cases hl : ∃ i, l = .commit i
  · obtain ⟨i, rfl⟩ := hl
    obtain ⟨p, hp, rfl⟩ := commit_eq h
    exact hi.commit hp
  · have hl' : ∀ i, l ≠ .commit i := fun i hi => hl ⟨i, hi⟩
    obtain ⟨he, ⟨-, rfl⟩ | ⟨a, R, -, hR, rfl⟩⟩ := System.step_cases h
    · exact hi.next he hl'
    · have hf := next_frame S hl'
      refine (hi.next he hl').of_frame
        ⟨rfl, List.prefix_rfl, fun _ hx => hx, fun n => ?_⟩
        rfl rfl rfl rfl rfl
      rw [hf.reps]
      exact replicas_epoch_le hR n

end Rostam.Cluster
