/-
No acked write is lost on failover.

`RunInv` puts the layers together along a run of the whole system: what
the drivers hold, and which copies are safe under every assignment of
epochs to nodes. A write a `Propose` returned nil for waits for nobody,
so it is safe at every node that counts; `Kept` is what that comes to:
every member of the committed ISR has it.

The runs are those whose sections are all `careful`. Without that a
write can be lost: `promotes_without_acked` widens the ISR by a node
whose catch-up was cut whole at the primary and has not arrived yet.
-/
import Rostam.Cluster.Proofs.Safe

namespace Rostam.Cluster

open Rostam.Lib Rostam.Pbisr MetaLog

variable {S S' : System} {l : Label}

variable {c : Config}

-- ======== the runs

/-- What holds of every state a careful run reaches. -/
structure RunInv (S : System) : Prop where
  driver : DriverInv S
  pos : 1 ≤ S.committed.epoch
  safe : ∀ prim, Compat prim S.minISR S.log →
    SafeInv prim S.minISR S.log S.reps

/-- The primary is in its ISR. -/
theorem RunInv.lead (hi : RunInv S) :
    S.committed.primary ∈ S.committed.isr := by
  have := hi.driver.member S.log.length
  rw [List.take_length] at this
  exact this hi.pos

theorem runInv_seeded (hc : c.commitLevel = .fullISR)
    (minISR : Nat) (placement : List NodeID) (primary : NodeID)
    (isr : List NodeID) :
    RunInv (.seeded c minISR placement primary isr) where
  driver := driverInv_seeded c minISR placement primary isr
  pos := Nat.le_refl 1
  safe prim _ := {
    ctl := {
      rep := logInv_blank prim c
      epoch_le := fun _ => Nat.zero_le _
      transfers := fun x hx => by cases hx
      chain := fun E h1 hE => absurd hE (Nat.not_lt.2 h1)
      led := fun E h2 hE => by
        have hE' : E < 1 := hE
        omega
      leads := fun h2 => by
        have h2' : 2 ≤ 1 := h2
        omega }
    level := fun _ => hc
    clean := fun _ _ => .inl ⟨rfl, rfl, rfl⟩
    grouped := fun _ _ _ hm => by cases hm
    shipped := fun _ hx => by cases hx
    member := fun _ _ => rfl
    acked := fun _ _ hr => by cases hr
    own := fun _ _ hr => by cases hr
    record := fun _ _ hr => by cases hr
    accepted := fun _ hx => by cases hx }

/-- One careful section of the whole system. -/
theorem step_runInv (hi : RunInv S) (hk : S.careful l = true)
    (h : S.step l = some S') : RunInv S' := by
  have hd := step_driverInv hi.driver h
  rcases System.step_kinds h with ⟨i, p, rfl, hp, hm, hlog, hR⟩
    | ⟨hm, hlog, hR | ⟨a, he, ha, hR⟩⟩
  · have hok := hi.driver.proposed p (List.mem_of_getElem? hp)
    refine ⟨hd, ?_, fun prim hc => ?_⟩
    · show 1 ≤ (state S'.minISR S'.log).epoch
      rw [hm, hlog, state_append]
      exact Nat.le_trans hi.pos (S.committed.epoch_le_apply p.op)
    · rw [hm, hlog] at hc ⊢
      rw [hR]
      exact (hi.safe prim hc.of_append).commit hc hok hi.pos hi.lead
        (System.careful_commit hk hp)
  · refine ⟨hd, ?_, fun prim hc => ?_⟩
    · show 1 ≤ (state S'.minISR S'.log).epoch
      rw [hm, hlog]
      exact hi.pos
    · rw [hm, hlog] at hc ⊢
      rw [hR]
      exact hi.safe prim hc
  · refine ⟨hd, ?_, fun prim hc => ?_⟩
    · show 1 ≤ (state S'.minISR S'.log).epoch
      rw [hm, hlog]
      exact hi.pos
    · rw [hm, hlog] at hc ⊢
      exact (hi.safe prim hc).act
        (fun prim' hc' => (hi.safe prim' hc').ctl.rep) hc hi.pos hi.lead
        he ha hk hR

/-- A run that takes careful sections only. -/
def Careful (S : System) (l : Label) : Prop := S.careful l = true

theorem runInv (hc : c.commitLevel = .fullISR) {minISR : Nat}
    {placement : List NodeID} {primary : NodeID} {isr : List NodeID}
    {tr : List Label}
    (hr : Reach System.step Careful
      (.seeded c minISR placement primary isr) tr S) : RunInv S :=
  hr.stateInvariant (runInv_seeded hc minISR placement primary isr)
    fun _ _ _ hi hk hs => step_runInv hi hk hs

-- ======== acked writes

/-- A `Propose` of node `n` returned nil for the record `r`. -/
def Returned (S : System) (n : NodeID) (r : Inflight) : Prop :=
  ∃ i, (i, none) ∈ (S.reps.eng n).returned
    ∧ (S.reps.eng n).pl.recs[i]? = some r

/-- Every nil return is of a record. -/
theorem RunInv.returned (hi : RunInv S) {n : NodeID} {i : Nat}
    (h : (i, none) ∈ (S.reps.eng n).returned) :
    ∃ r, Returned S n r ∧ (S.reps.eng n).pl.recs[i]? = some r := by
  obtain ⟨prim, hc⟩ := exists_compat S.minISR S.log
  have hwf := ((hi.safe prim hc).ctl.rep.node n).wf
  obtain ⟨r, hr, -⟩ := hwf.settled.told i none h
  exact ⟨r, ⟨i, h, hr⟩, hr⟩

/-- Every member of the committed ISR has every acked write, behind its
reported frontier. -/
theorem RunInv.kept (hi : RunInv S) {n m : NodeID} {r : Inflight}
    (hr : Returned S n r) (hm : m ∈ S.committed.isr) :
    r.hist <+: (S.reps.eng m).history ∧ r.seq ≤ (S.reps.eng m).frontier.1 := by
  obtain ⟨prim, hc⟩ := exists_compat S.minISR S.log
  have hs := hi.safe prim hc
  obtain ⟨i, hret, hget⟩ := hr
  have hmem := List.mem_of_getElem? hget
  have hN := hs.ctl.rep.node n
  have hw : Wrote S.reps r.seq r.epoch r.hist :=
    .inr ⟨n, r, hmem, rfl, rfl, rfl⟩
  have hle : r.epoch ≤ S.committed.epoch := hs.ctl.wrote_le hw
  have hpos : 1 ≤ r.epoch := record_pos
    (fun prim' hc' => (hi.safe prim' hc').ctl.rep) hmem
  have hpend : r.pending = [] := by
    obtain ⟨r', hr', hres, herr⟩ := hN.wf.settled.told i none hret
    rw [hget] at hr'
    cases hr'
    refine hs.acked n r hmem ?_
    unfold Inflight.acked
    rw [hres, herr]
    rfl
  have hsafe : ∀ x, x ≠ n →
      Safe prim S.minISR S.log S.reps r.epoch x r.hist := by
    intro x hx
    rcases hs.record n r hmem x hx with hp | hsafe
    · rw [hpend] at hp
      cases hp
    · exact hsafe
  have hhist : r.hist <+: (S.reps.eng m).history := by
    rcases Nat.lt_or_eq_of_le hle with hlt | heq
    · obtain ⟨-, hne⟩ := hs.ctl.chain r.epoch hpos hlt
      rw [hN.own r hmem] at hne
      exact (hsafe _ hne).2 hlt rfl m hm
    · by_cases hmn : m = n
      · rw [hmn]
        exact hs.own n r hmem heq
      · exact (hsafe m hmn).1 heq hm
  refine ⟨hhist, ?_⟩
  have hfull := hs.clean m (hs.member m hm)
  rw [← hs.ctl.rep.lawful.length hw, ← hs.ctl.rep.lawful.length hfull]
  exact hhist.length_le

-- ======== failover

theorem history_prefix_fsm (e : Engine) : e.history <+: e.fsm := by
  unfold Engine.history
  split
  · exact List.dropLast_prefix _
  · exact List.prefix_rfl

/-- `Promote` keeps the FSM and, unless it forgets the node's own
writes, the frontier. -/
theorem promote_keeps {e : Engine} (hd : e.toLog.Dated) (E x t : Nat) :
    (e.promote E x t).fsm = e.fsm ∧ (e.forgets ⟨t, .promote E x⟩ = false →
        (e.promote E x t).frontier = e.frontier) := by
  have h : e.step ⟨t, .promote E x⟩ = some (e.promote E x t) := rfl
  refine ⟨?_, fun hf => ?_⟩
  · rcases Engine.step_log h with hl | ⟨E, isr, d, hinp, -⟩
      | ⟨E, isr, d, hinp, -⟩ | ⟨ms, hms, hr⟩ | ⟨E, x, -, -, -, hl⟩
      | ⟨s, out, hinp, -⟩
    · rw [hl]
    · cases hinp
    · cases hinp
    · rcases hr.eq_or_mem with heq | ⟨m, hm⟩
      · rw [heq]
      · exact absurd (hms m hm).1 (by simp [Input.Delivers])
    · rw [hl]
      rfl
    · cases hinp
  · rcases Engine.step_history hd hf rfl h with hst
      | ⟨E, isr, d, hinp, -⟩ | ⟨ms, hne, hms, -⟩ | ⟨s, out, hinp, -⟩
    · exact hst.frontier
    · cases hinp
    · obtain ⟨m, hm⟩ := List.exists_mem_of_ne_nil ms hne
      exact absurd (hms m hm).1 (by simp [Input.Delivers])
    · cases hinp

/-- **No acked write is lost on failover.** In every state a careful run
reaches, under `CommitFullISR`: whatever write a `Propose` of any node
has returned nil for, the member of the committed ISR that
`decidePBPromotions` names has it and everything below it in its FSM,
behind the frontier it reports, and has it still after `Promote`; so it
does behind the promoted frontier, unless that very `Promote` forgets
the node's own writes. -/
theorem acked_survives_failover {c : Config}
    (hc : c.commitLevel = .fullISR) {minISR : Nat}
    {placement : List NodeID} {primary : NodeID} {isr : List NodeID}
    {tr : List Label}
    (hr : Reach System.step Careful
      (.seeded c minISR placement primary isr) tr S)
    {n : NodeID} {i : Nat}
    (hret : (i, none) ∈ (S.reps.eng n).returned)
    {lastRenewNs nowNs timeout : Int} {reachable : List NodeID}
    {promo : PbPromotion}
    (hp : promo ∈ decidePBPromotions
      [System.liveness S.committed lastRenewNs] nowNs timeout
      (some (S.highWater reachable))) :
    ∃ r, (S.reps.eng n).pl.recs[i]? = some r ∧ r.hist.length = r.seq
      ∧ r.hist <+: (S.reps.eng promo.newPrimary).fsm
      ∧ r.seq ≤ (S.reps.eng promo.newPrimary).frontier.1
      ∧ ∀ x t, r.hist <+: ((S.reps.eng promo.newPrimary).promote
            promo.newEpoch x t).fsm
        ∧ ((S.reps.eng promo.newPrimary).forgets
            ⟨t, .promote promo.newEpoch x⟩ = false →
          r.seq ≤ ((S.reps.eng promo.newPrimary).promote
            promo.newEpoch x t).frontier.1) := by
  have hi := runInv hc hr
  obtain ⟨r, hr, hget⟩ := hi.returned hret
  obtain ⟨s, hs, -, -, hmem, -, -⟩ := mem_decidePBPromotions hp
  rw [List.mem_singleton.1 hs] at hmem
  obtain ⟨hhist, hseq⟩ := hi.kept hr hmem
  have hfsm := hhist.trans (history_prefix_fsm _)
  obtain ⟨prim, hcp⟩ := exists_compat S.minISR S.log
  have hrep := (hi.safe prim hcp).ctl.rep
  refine ⟨r, hget, ?_, hfsm, hseq, fun x t => ?_⟩
  · exact hrep.lawful.length
      (.inr ⟨n, r, List.mem_of_getElem? hget, rfl, rfl, rfl⟩)
  · obtain ⟨h1, h2⟩ := promote_keeps
      (hrep.node promo.newPrimary).dated promo.newEpoch x t
    refine ⟨by rw [h1]; exact hfsm, fun hf => ?_⟩
    rw [h2 hf]
    exact hseq

/-- A section of one engine, as a label. -/
def turn (n src : NodeID) (i : Input) : Label := .engine ⟨n, src, ⟨0, i⟩⟩

/-- `a`, the primary of epoch 1 over the ISR `a`, `b`, writes one
payload; `b` takes it and acks; the write is returned nil. -/
def ackOne : List Label := [.advance "a", turn "a" "" (.grantLease 1 9),
    turn "a" "" (.fence "a" ["a", "b"] 1 [7]),
    turn "a" "" (.applyLocal true), turn "a" "" .register,
    turn "a" "" (.submitNext true), turn "a" "" .submitDone,
    turn "b" "a" (.receive ⟨1, 1, 0, 0, [7]⟩ true),
    turn "a" "" (.complete "b" [⟨1, 1, 0, 0, [7]⟩] (some ⟨1, 1, true⟩)),
    turn "a" "" (.awaitDone 0)]

theorem acked_survives_ackOne :
    ∃ S, Reach System.step Careful
        (.seeded { nodeID := "" } 1 ["a", "b"] "a" ["a", "b"]) ackOne S
      ∧ decidePBPromotions [System.liveness S.committed 0] 10 5
          (some (S.highWater ["b"])) = [⟨0, 2, "b"⟩]
      ∧ ∃ r, (S.reps.eng "a").pl.recs[0]? = some r
        ∧ r.hist <+: (S.reps.eng "b").fsm := by
  obtain ⟨S, hr, hret, hp⟩ : ∃ S, Reach System.step Careful
      (.seeded { nodeID := "" } 1 ["a", "b"] "a" ["a", "b"]) ackOne S
      ∧ (0, none) ∈ (S.reps.eng "a").returned
      ∧ decidePBPromotions [System.liveness S.committed 0] 10 5
          (some (S.highWater ["b"])) = [⟨0, 2, "b"⟩] := by
    apply exec_decide fun _ _ hk => hk
    decide
  obtain ⟨r, h1, -, h2, -⟩ := acked_survives_failover rfl hr hret
    (hp ▸ List.mem_singleton.2 rfl)
  exact ⟨S, hr, hp, r, h1, h2⟩

/-- `a` alone in its ISR writes one payload and returns nil; its grow
tick catches `b` up, cuts the tail whole into `b`'s sender, flips and
submits, and the widening is committed before `b` has taken a frame. -/
def growAlone : List Label := [.advance "a", turn "a" "" (.promote 1 9),
    turn "a" "" (.fence "a" ["a"] 1 [7]), turn "a" "" (.applyLocal true),
    turn "a" "" .register, turn "a" "" .submitDone,
    turn "a" "" (.awaitDone 0), .growRead "a", .growReconcile "a",
    .growBarrier "a", .growConfirm "a", .growCatchup "a" "b",
    turn "a" "" (.growHandshake (some ⟨0, 0, 0, 0, true⟩)),
    turn "a" "" .growCheck, turn "a" "" .growBackfill, turn "a" "" .flip,
    .growSubmit "a", .commit 0]

/-- The acked write is in no log `decidePBPromotions` can choose. -/
theorem promotes_without_acked :
    ∃ S, Reach System.step Free
        (.seeded { nodeID := "" } 1 ["a", "b"] "a" ["a"]) growAlone S
      ∧ (0, none) ∈ (S.reps.eng "a").returned
      ∧ (S.reps.eng "a").pl.recs[0]?.map Inflight.hist = some [[7]]
      ∧ decidePBPromotions [System.liveness S.committed 0] 10 5
          (some (S.highWater ["b"])) = [⟨0, 2, "b"⟩]
      ∧ (S.reps.eng "b").fsm = [] :=
  exec_free (by decide)

end Rostam.Cluster
