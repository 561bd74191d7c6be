/-
What a linearizable read has seen, and the primaries after it.

A write a Propose returned nil for is in the history of every member of
the committed ISR. Such a history is never lost in a careful run
(`held_step`): members' histories grow, a promotion picks a member, and a
node that joins has the primary's history. So a read that returned acked
writes only agrees with every later primary.

The barrier does not ask for that. A write is applied before it is
shipped, and `uncommitted_tail_read` reads it in between.

Which clocks a lease and a failover go by is left open: a primary that
was deposed passes the barrier for as long as it takes its lease to be
valid. Its reads are those of a node outside the committed ISR.
-/
import Rostam.Cluster.LinearRead
import Rostam.Cluster.Proofs.Failover

namespace Rostam.Cluster

open Rostam.Lib Rostam.Pbisr MetaLog

variable {S S' : System} {l : Label} {hist : List Data}

variable {tr : List Label} {n : NodeID} {state : List Data}

-- ======== what the ISR holds

/-- Every member of the committed ISR has the history. -/
def Held (S : System) (hist : List Data) : Prop :=
  ∀ m ∈ S.committed.isr, hist <+: (S.reps.eng m).history

/-- The state has no uncommitted tail: it ends in a write some `Propose`
returned nil for, or below one. -/
def Acknowledged (S : System) (state : List Data) : Prop :=
  state = [] ∨ ∃ n r, Returned S n r ∧ state <+: r.hist

theorem RunInv.held (hi : RunInv S) (h : Acknowledged S state) :
    Held S state := by
  intro m hm
  rcases h with rfl | ⟨n, r, hr, hpre⟩
  · exact List.nil_prefix
  · exact hpre.trans (hi.kept hr hm).1

/-- A committed entry leaves what is held held. -/
theorem RunInv.held_commit (hi : RunInv S) {p : Proposal}
    (hp : ProposalOk S p) (hk : S.admits p.op = true)
    (hh : Held S hist) :
    ∀ m ∈ (S.committed.apply p.op).isr, hist <+: (S.reps.eng m).history := by
  intro m hm
  rcases hp.commits with h | ⟨q, hop, -, -, h⟩ | ⟨isr, hop, h, -, -, -⟩ <;>
    rw [h] at hm
  · exact hh m hm
  · -- the promoted node was a member
    rw [List.mem_singleton.1 hm]
    exact hh q (System.admits_promotion (hop ▸ hk))
  · -- a node that joins has the primary's history
    obtain ⟨prim, hc⟩ := exists_compat S.minISR S.log
    rw [hop] at hk
    rcases (hi.safe prim hc).joins hi.lead hk hm with hm | ⟨-, heq⟩
    · exact hh m hm
    · rw [heq]
      exact hh _ hi.lead

/-- One careful section leaves what is held held. -/
theorem held_step (hi : RunInv S) (hk : S.careful l = true)
    (h : S.step l = some S') (hh : Held S hist) : Held S' hist := by
  unfold Held System.committed at *
  rcases System.step_kinds h with ⟨i, p, rfl, hp, hm, hlog, hR⟩
    | ⟨hm, hlog, hR | ⟨a, he, ha, hR⟩⟩
  · rw [hm, hlog, hR, state_append]
    exact hi.held_commit (hi.driver.proposed p (List.mem_of_getElem? hp))
      (System.careful_commit hk hp) hh
  · rw [hm, hlog, hR]
    exact hh
  · rw [hm, hlog]
    obtain ⟨hf, hs, hcov⟩ := System.careful_act hk ha
    obtain ⟨hb, e', he', heq⟩ := step_eq_some hR
    obtain ⟨prim, hc⟩ := exists_compat S.minISR S.log
    intro m hmem
    rw [heq]
    exact (hh m hmem).trans
      ((hi.safe prim hc).history_grows hf hs hcov he' hmem)

/-- A careful run leaves what is held held. -/
theorem held_run (hi : RunInv S)
    (hr : Reach System.step Careful S tr S') (hh : Held S hist) :
    RunInv S' ∧ Held S' hist :=
  hr.stateInvariant (P := fun S => RunInv S ∧ Held S hist) ⟨hi, hh⟩
    fun _ _ _ h hk hs =>
      ⟨step_runInv h.1 hk hs, held_step h.1 hk hs h.2⟩

/-- A member of the committed ISR has applied what is held. -/
theorem Held.applied (hh : Held S hist) (hn : n ∈ S.committed.isr) :
    hist <+: (S.reps.eng n).fsm :=
  (hh n hn).trans (history_prefix_fsm _)

-- ======== the read

/-- A read is a run from its first look to its last. -/
theorem Served.run {K : System → Label → Prop} (h : Served K n S S' state) :
    ∃ S₁ S₂ tr₁ tr₂ tr₃, Reach System.step K S tr₁ S₁
      ∧ Reach System.step K S₁ tr₂ S₂ ∧ Reach System.step K S₂ tr₃ S'
      ∧ state = (S'.reps.eng n).fsm := by
  obtain ⟨-, -, -, S₁, S₂, tr₁, tr₂, tr₃, -, h₁, h₂, -, h₃, hs⟩ := h
  exact ⟨S₁, S₂, tr₁, tr₂, tr₃, h₁, h₂, h₃, hs⟩

theorem RunInv.run (hi : RunInv S)
    (hr : Reach System.step Careful S tr S') : RunInv S' :=
  hr.stateInvariant hi fun _ _ _ hi hk hs => step_runInv hi hk hs

theorem RunInv.served (hi : RunInv S)
    (h : Served Careful n S S' state) : RunInv S' := by
  obtain ⟨S₁, S₂, tr₁, tr₂, tr₃, h₁, h₂, h₃, -⟩ := h.run
  exact ((hi.run h₁).run h₂).run h₃

/-- **What a linearizable read has seen stays.** Under `CommitFullISR`, a
read in a careful run whose state has no uncommitted tail: in every state
the run reaches later the committed primary has the whole of it in its
applied log, and so does the state of every later linearizable read that
a member of the ISR committed then serves. -/
theorem linearizable_read_kept {c : Config}
    (hc : c.commitLevel = .fullISR) {minISR : Nat}
    {placement : List NodeID} {primary : NodeID} {isr : List NodeID}
    {tr : List Label} (hr : Reach System.step Careful
      (.seeded c minISR placement primary isr) tr S)
    {n : NodeID} {state : List Data} {S₁ : System}
    (hread : Served Careful n S S₁ state) (hack : Acknowledged S₁ state)
    {tr' : List Label} (hr' : Reach System.step Careful S₁ tr' S') :
    state <+: (S'.reps.eng S'.committed.primary).fsm
      ∧ ∀ p S₂ state', Served Careful p S' S₂ state' →
        p ∈ S₂.committed.isr → state <+: state' := by
  have hi₁ := (runInv hc hr).served hread
  obtain ⟨hi', hh'⟩ := held_run hi₁ hr' (hi₁.held hack)
  refine ⟨hh'.applied hi'.lead, fun p S₂ state' hlater hp => ?_⟩
  obtain ⟨T₁, T₂, tr₁, tr₂, tr₃, h₁, h₂, h₃, hs⟩ := hlater.run
  obtain ⟨ia, ha⟩ := held_run hi' h₁ hh'
  obtain ⟨ib, hb⟩ := held_run ia h₂ ha
  obtain ⟨-, hd⟩ := held_run ib h₃ hb
  rw [hs]
  exact hd.applied hp

/-- A read whose looks at the engine all find the one state. -/
theorem served_now {K : System → Label → Prop} {now : Nat}
    (h : S.verifyLeader n now = true) :
    Served K n S S (S.reps.eng n).fsm :=
  ⟨now, now, 0, S, S, [], [], [], h, .init, .init, .inr h, .init, rfl⟩

/-- `a`, the primary of epoch 1 over the ISR `a`, `b`, has applied one
payload and shipped nothing. -/
def applyOnly : List Label := [.advance "a", turn "a" "" (.grantLease 1 9),
    turn "a" "" (.fence "a" ["a", "b"] 1 [7]),
    turn "a" "" (.applyLocal true), turn "a" "" .register]

/-- `b` finds `a` gone, and is promoted. -/
def promoteB : List Label :=
  [.advance "b", .failover "b" 10 5 0 ["b"], .commit 0, .advance "b",
    turn "b" "" (.promote 2 9)]

/-- The read at `a` returns the payload; the primary of epoch 2 does not
have it, and a linearizable read there returns a state without it. -/
theorem uncommitted_tail_read :
    ∃ S S', Reach System.step Careful
        (.seeded { nodeID := "" } 1 ["a", "b"] "a" ["a", "b"]) applyOnly S
      ∧ Served Careful "a" S S [[7]]
      ∧ Reach System.step Careful S promoteB S'
      ∧ S'.committed.epoch = 2 ∧ S'.committed.primary = "b"
      ∧ (S'.reps.eng "b").fsm = []
      ∧ Served Careful "b" S' S' [] := by
  obtain ⟨S, hr, hv, hfsm, hrun⟩ : ∃ S, Reach System.step Careful
      (.seeded { nodeID := "" } 1 ["a", "b"] "a" ["a", "b"]) applyOnly S
      ∧ S.verifyLeader "a" 0 = true ∧ (S.reps.eng "a").fsm = [[7]]
      ∧ (exec System.step System.careful S promoteB).any (fun S' => decide
        (S'.committed.epoch = 2 ∧ S'.committed.primary = "b"
          ∧ (S'.reps.eng "b").fsm = [] ∧ S'.verifyLeader "b" 0 = true))
        = true := by
    apply exec_decide fun _ _ hk => hk
    decide
  obtain ⟨S', hr', hep, hprim, hfsm', hv'⟩ :=
    exec_decide (K := Careful) (fun _ _ hk => hk) hrun
  exact ⟨S, S', hr, hfsm ▸ served_now hv, hr', hep, hprim, hfsm',
    hfsm' ▸ served_now hv'⟩

/-- Once the write is acked the read is kept, at the node that takes over
too. -/
theorem linearizable_read_kept_ackOne :
    ∃ S S' state,
    Reach System.step Careful
        (.seeded { nodeID := "" } 1 ["a", "b"] "a" ["a", "b"]) ackOne S
      ∧ Served Careful "a" S S [[7]]
      ∧ Reach System.step Careful S promoteB S'
      ∧ S'.committed.primary = "b"
      ∧ [[7]] <+: (S'.reps.eng S'.committed.primary).fsm
      ∧ Served Careful "b" S' S' state ∧ [[7]] <+: state := by
  obtain ⟨S, hr, hv, hfsm, hret, hrec, hrun⟩ : ∃ S, Reach System.step Careful
      (.seeded { nodeID := "" } 1 ["a", "b"] "a" ["a", "b"]) ackOne S
      ∧ S.verifyLeader "a" 0 = true ∧ (S.reps.eng "a").fsm = [[7]]
      ∧ (0, none) ∈ (S.reps.eng "a").returned
      ∧ (S.reps.eng "a").pl.recs[0]?.map Inflight.hist = some [[7]]
      ∧ (exec System.step System.careful S promoteB).any (fun S' => decide
        (S'.committed.primary = "b" ∧ S'.verifyLeader "b" 0 = true
          ∧ "b" ∈ S'.committed.isr)) = true := by
    apply exec_decide fun _ _ hk => hk
    decide
  obtain ⟨S', hr', hprim, hv', hmem⟩ :=
    exec_decide (K := Careful) (fun _ _ hk => hk) hrun
  have hread : Served Careful "a" S S [[7]] := hfsm ▸ served_now hv
  have hack : Acknowledged S [[7]] := by
    obtain ⟨r, hget, hist⟩ := Option.map_eq_some_iff.1 hrec
    exact .inr ⟨"a", r, ⟨0, hret, hget⟩,
      hist ▸ List.prefix_rfl⟩
  obtain ⟨h1, h2⟩ := linearizable_read_kept rfl hr hread hack hr'
  exact ⟨S, S', _, hr, hread, hr', hprim, h1, served_now hv',
    h2 "b" S' _ (served_now hv') hmem⟩

end Rostam.Cluster
