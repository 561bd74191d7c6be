/-
What an install is called with.

For one transfer identity and one blob that every chunk of that identity
is a slice of: the stage, while it is of that identity, holds a beginning
of the blob (`Staged`), because a chunk is taken only at the offset the
stage has reached. A beginning of full length is the blob. Chunks of any
other identity, and chunks refused, can only throw the stage away.

Short of an install a chunk moves nothing but the epoch watermark and
what an epoch adoption does to the pipeline; no record is of the new
epoch, so nothing commits.
-/
import Rostam.Shard.Staging
import Rostam.Pbisr.Proofs.Commit
import Rostam.Pbisr.Proofs.Log

namespace Rostam.Shard

open Rostam.Lib Rostam.Pbisr

variable {parse : Bytes → List Data} {t t' : Target} {c : SnapshotChunk}
  {k : TransferKey} {B : Bytes} {now : Nat}

-- ======== the stage

/-- The chunk is a slice of `B` at its offset. -/
def SliceOf (B : Bytes) (c : SnapshotChunk) : Prop :=
  c.data <+: B.drop c.offset

/-- The stage holds a beginning of the blob of its identity, and every
install called for that identity was called with the blob. -/
structure Staged (k : TransferKey) (B : Bytes) (t : Target) : Prop where
  stage : ∀ st, t.snapStage = some st → st.key = k → st.buf <+: B
  installs : ∀ c i, (c, i) ∈ t.installs → c.key = k →
    i = ⟨k.epoch, k.frontierSeq, k.frontierEpoch, B⟩

theorem Staged.drop (h : Staged k B t) : Staged k B t.drop :=
  ⟨fun _ hst => (by cases hst), h.installs⟩

theorem Staged.adopt (h : Staged k B t) (E now : Nat) :
    Staged k B (t.adopt E now) := by
  unfold Target.adopt
  split
  · exact ⟨fun _ hst => (by cases hst), h.installs⟩
  · exact h

/-- The stage a chunk continues is the one at hand or an empty one. -/
theorem Staged.stageFor (h : Staged k B t) {st : SnapshotStage}
    (hst : Target.stageFor t.snapStage c = some st) :
    st.key = c.key ∧ (st.key = k → st.buf <+: B) := by
  have hfresh : ∀ {s : SnapshotStage},
      (if c.offset = 0 then some (⟨c.key, []⟩ : SnapshotStage) else none)
        = some s → s.key = c.key ∧ (s.key = k → s.buf <+: B) := by
    intro s hs
    split at hs
    · injection hs with hs
      subst hs
      exact ⟨rfl, fun _ => List.nil_prefix⟩
    · cases hs
  cases hs : t.snapStage with
  | none =>
    rw [hs] at hst
    exact hfresh hst
  | some s =>
    rw [hs] at hst
    simp only [Target.stageFor] at hst
    split at hst
    · next hkey =>
      injection hst with hst
      subst hst
      exact ⟨hkey, h.stage s hs⟩
    · exact hfresh hst

/-- A chunk at the offset reached extends the beginning. -/
theorem SliceOf.extends (hc : SliceOf B c) {buf : Bytes} (hb : buf <+: B)
    (ho : c.offset = buf.length) : buf ++ c.data <+: B := by
  obtain ⟨r, rfl⟩ := hb
  unfold SliceOf at hc
  rw [ho, List.drop_left] at hc
  exact List.prefix_append_right_inj buf |>.mpr hc

/-- A chunk of the transfer extends it, any other leaves it. -/
theorem Staged.accumulate (h : Staged k B t) (hB : B.length = k.total)
    (hc : c.key = k → SliceOf B c) : Staged k B (t.accumulate c).1 := by
  unfold Target.accumulate
  dsimp only
  split
  · exact h.drop
  · next st hst =>
    obtain ⟨hkey, hbuf⟩ := h.stageFor hst
    split
    · exact h.drop
    · next ho =>
      have hext : c.key = k → st.buf ++ c.data <+: B := fun hk =>
        (hc hk).extends (hbuf (hkey.trans hk)) (not_not.mp ho)
      split
      · refine ⟨fun s hs hsk => ?_, h.installs⟩
        cases hs
        exact hext (hkey.symm.trans hsk)
      · split
        · exact h.drop
        · next hlen =>
          refine ⟨fun _ hs => (by cases hs), fun c' i hm hk => ?_⟩
          rcases List.mem_append.mp hm with hm | hm
          · exact h.installs c' i hm hk
          · have heq := List.mem_singleton.mp hm
            injection heq with h1 h2
            subst h1 h2
            -- a beginning as long as the blob is the blob
            have hwhole : st.buf ++ c'.data = B := by
              refine (hext hk).eq_of_length ?_
              rw [not_not.mp hlen, hB, ← hk]
              rfl
            rw [hwhole, ← hk]
            rfl

/-- A delivered chunk keeps the stage to its blob. -/
theorem Staged.receive (h : Staged k B t) (hB : B.length = k.total)
    (hc : c.key = k → SliceOf B c) (now : Nat) :
    Staged k B (t.receiveSnapshotChunk c now).1 := by
  unfold Target.receiveSnapshotChunk
  split
  · exact h.drop
  · split
    · exact (h.adopt _ _).accumulate hB hc
    · exact (h.adopt _ _).drop

/-- No other step stages or calls an install. -/
theorem Staged.step {i : TargetInput} (h : Staged k B t)
    (hB : B.length = k.total)
    (hc : ∀ c, i.chunk? = some c → c.key = k → SliceOf B c)
    (hs : t.step parse i = some t') : Staged k B t' := by
  cases i with
  | chunk c now =>
    cases hs
    exact h.receive hB (hc c rfl) now
  | beginInstall i out =>
    obtain ⟨x, -, rfl⟩ := Option.map_eq_some_iff.mp hs
    exact ⟨h.stage, h.installs⟩
  | node i =>
    cases i with
    | beginInstall s out => cases hs
    | restart seq epoch readable =>
      cases hs
      exact ⟨fun _ hst => (by cases hst), h.installs⟩
    | run ev =>
      obtain ⟨n, -, rfl⟩ := Option.map_eq_some_iff.mp hs
      exact ⟨h.stage, h.installs⟩
    | install s out =>
      obtain ⟨n, -, rfl⟩ := Option.map_eq_some_iff.mp hs
      exact ⟨h.stage, h.installs⟩
    | abortInstall out =>
      obtain ⟨n, -, rfl⟩ := Option.map_eq_some_iff.mp hs
      exact ⟨h.stage, h.installs⟩

-- ======== the replica

/-- What a chunk leaves of the replica: everything but the epoch and what
its adoption fails. -/
structure Untouched (n n' : Node) : Prop where
  fsm : n'.eng.fsm = n.eng.fsm
  frontier : n'.eng.frontier = n.eng.frontier
  committed : n'.eng.pl.committed = n.eng.pl.committed
  poisoned : n'.eng.poisoned = n.eng.poisoned
  fence : n'.fence = n.fence

theorem Untouched.refl (n : Node) : Untouched n n := ⟨rfl, rfl, rfl, rfl, rfl⟩

theorem Untouched.trans {n₁ n₂ n₃ : Node} (h : Untouched n₁ n₂)
    (h' : Untouched n₂ n₃) : Untouched n₁ n₃ :=
  ⟨h'.fsm.trans h.fsm, h'.frontier.trans h.frontier,
    h'.committed.trans h.committed, h'.poisoned.trans h.poisoned,
    h'.fence.trans h.fence⟩

/-- An epoch adoption commits nothing. -/
theorem adoptEpoch_committed {e : Engine} (hw : e.Wf) (E now : Nat) :
    (e.adoptEpoch E now).pl.committed = e.pl.committed := by
  have hm : e.pl.Moves (fun _ => false) e.commitLevel (fun _ _ _ => False)
      (e.adoptEpoch E now).pl := Engine.moves_adoptEpoch hw.captured.recs E now
  exact hm.committed_eq

/-- An adopted epoch leaves the rest of the replica alone. -/
theorem untouched_adopt (hw : t.node.eng.Wf) (E now : Nat) :
    Untouched t.node (t.adopt E now).node := by
  unfold Target.adopt Engine.snapshotFence
  split
  · have hlog := Engine.adoptEpoch_log t.node.eng E now
    refine ⟨congrArg Log.fsm hlog, congrArg Log.frontier hlog,
      adoptEpoch_committed hw E now, congrArg Log.poisoned hlog, rfl⟩
  · exact .refl _

theorem accumulate_node (t : Target) (c : SnapshotChunk) :
    (t.accumulate c).1.node = t.node := by
  unfold Target.accumulate
  dsimp only
  split
  · rfl
  · split
    · rfl
    · split
      · rfl
      · split <;> rfl

/-- A chunk changes the replica by an adopted epoch at most. -/
theorem receive_node (t : Target) (c : SnapshotChunk) (now : Nat) :
    (t.receiveSnapshotChunk c now).1.node = t.node
      ∨ (t.receiveSnapshotChunk c now).1.node
        = (t.adopt c.epoch now).node := by
  unfold Target.receiveSnapshotChunk
  split
  · exact Or.inl rfl
  · split
    · exact Or.inr (accumulate_node _ c)
    · exact Or.inr rfl

theorem adopt_wf (hw : t.node.eng.Wf) (E now : Nat) :
    (t.adopt E now).node.eng.Wf := by
  unfold Target.adopt
  split
  · have hstep : t.node.eng.step ⟨now, .snapshotFence E⟩
        = some (t.node.eng.snapshotFence E now) := rfl
    exact Engine.step_wf hw hstep
  · exact hw

theorem receive_wf (hw : t.node.eng.Wf) (c : SnapshotChunk) (now : Nat) :
    (t.receiveSnapshotChunk c now).1.node.eng.Wf := by
  rcases receive_node t c now with h | h <;> rw [h]
  · exact hw
  · exact adopt_wf hw c.epoch now

theorem untouched_receive (hw : t.node.eng.Wf) (c : SnapshotChunk)
    (now : Nat) :
    Untouched t.node (t.receiveSnapshotChunk c now).1.node := by
  rcases receive_node t c now with h | h <;> rw [h]
  · exact .refl _
  · exact untouched_adopt hw c.epoch now

/-- A delivery of chunks leaves the replica alone. -/
theorem untouched_receiveAll (cs : List (SnapshotChunk × Nat)) :
    ∀ t : Target, t.node.eng.Wf → Untouched t.node (t.receiveAll cs).node := by
  induction cs with
  | nil => exact fun t _ => .refl _
  | cons c cs ih =>
    intro t hw
    exact (untouched_receive hw c.1 c.2).trans (ih _ (receive_wf hw c.1 c.2))

theorem node_wf {n n' : Node} {i : NodeInput} (hw : n.eng.Wf)
    (hs : n.step i = some n') : n'.eng.Wf := by
  cases i with
  | run ev =>
    simp only [Node.step, Node.runEngine] at hs
    split at hs
    · cases hs
    · obtain ⟨e', he, rfl⟩ := Option.map_eq_some_iff.mp hs
      exact Engine.step_wf hw he
  | beginInstall s out =>
    cases hs
    unfold Node.beginInstall
    dsimp only
    split <;> exact hw
  | install s out =>
    simp only [Node.step, Node.install] at hs
    split at hs
    · next hcond =>
      have hinst : ∀ o : Engine.InstallOutcome,
          (n.eng.installSnapshot s o).Wf := by
        intro o
        have hstep : n.eng.step ⟨0, .installSnapshot s o⟩
            = some (n.eng.installSnapshot s o) := if_pos hcond.2
        exact Engine.step_wf hw hstep
      split at hs
      · cases hs
        exact hw
      · split at hs
        · next g =>
          cases hs
          exact hinst (.fsmErr g)
        · next low =>
          cases hs
          exact hinst (if (n.fence.lower low).2 then .ok
            else .commitErr)
    · cases hs
  | abortInstall out =>
    simp only [Node.step, Node.abortInstall] at hs
    split at hs
    · cases hs
    · cases hs
      exact hw
  | restart seq epoch readable =>
    cases hs
    unfold Node.restart
    split
    · exact Engine.wf_restored ..
    · exact Engine.wf_restored ..

/-- Every step keeps the engine well formed. -/
theorem target_wf {i : TargetInput} (hw : t.node.eng.Wf)
    (hs : t.step parse i = some t') : t'.node.eng.Wf := by
  cases i with
  | chunk c now =>
    cases hs
    exact receive_wf hw c now
  | beginInstall i out =>
    obtain ⟨x, -, rfl⟩ := Option.map_eq_some_iff.mp hs
    exact node_wf (i := .beginInstall _ out) hw rfl
  | node i =>
    cases i with
    | beginInstall s out => cases hs
    | restart seq epoch readable =>
      cases hs
      exact node_wf (i := .restart seq epoch readable) hw rfl
    | run ev =>
      obtain ⟨n, hn, rfl⟩ := Option.map_eq_some_iff.mp hs
      exact node_wf hw hn
    | install s out =>
      obtain ⟨n, hn, rfl⟩ := Option.map_eq_some_iff.mp hs
      exact node_wf hw hn
    | abortInstall out =>
      obtain ⟨n, hn, rfl⟩ := Option.map_eq_some_iff.mp hs
      exact node_wf hw hn

-- ======== runs

/-- In every run of a replica: an install called for an identity, all of
whose delivered chunks are slices of one blob of the declared length, is
called with that blob and that identity. And chunks delivered to any
state of the run leave the FSM, the frontier, the commit watermark, the
poison latch and the durable fence as they are. -/
theorem staging_exact {cfg : Config} {dir : Bool} {seq epoch : Nat}
    {fsm : List Data} {tr : List TargetInput}
    (hr : Reach (Target.step parse) Free (.boot cfg dir seq epoch fsm) tr t) :
    (∀ (k : TransferKey) (B : Bytes), B.length = k.total →
      (∀ i ∈ tr, ∀ c, i.chunk? = some c → c.key = k → SliceOf B c) →
      ∀ c i, (c, i) ∈ t.installs → c.key = k →
        i = ⟨k.epoch, k.frontierSeq, k.frontierEpoch, B⟩)
    ∧ ∀ cs : List (SnapshotChunk × Nat),
      Untouched t.node (t.receiveAll cs).node := by
  refine ⟨fun k B hB htr => ?_, fun cs => ?_⟩
  · have hst : ∀ {tr : List TargetInput} {t : Target},
        Reach (Target.step parse) Free (.boot cfg dir seq epoch fsm) tr t →
        (∀ i ∈ tr, ∀ c, i.chunk? = some c → c.key = k → SliceOf B c) →
        Staged k B t := by
      intro tr t hr
      induction hr with
      | init =>
        exact fun _ => ⟨fun _ hst => (by cases hst),
          fun _ _ hm => by cases hm⟩
      | step i _ _ hs ih =>
        intro hall
        refine (ih fun j hj => hall j (List.mem_append_left _ hj)).step
          hB (hall i ?_) hs
        exact List.mem_append_right _ (List.mem_singleton_self i)
    exact (hst hr htr).installs
  · refine untouched_receiveAll cs t ?_
    exact hr.stateInvariant (P := fun t => t.node.eng.Wf)
      (Engine.wf_restored ..) fun _ _ _ hw _ hs => target_wf hw hs

/-- Two chunks of one transfer of `[1, 2, 3]`, with a chunk of another
transfer and a repetition between them. -/
def twoChunks : List TargetInput := [.chunk ⟨1, 5, 1, 0, 9, false, [7]⟩ 0,
    .chunk ⟨1, 5, 1, 0, 3, false, [1, 2]⟩ 0,
    .chunk ⟨1, 5, 1, 2, 3, true, [3]⟩ 0, .chunk ⟨1, 5, 1, 2, 3, true, [3]⟩ 0]

/-- The install of the transfer is called with its blob. -/
theorem staging_exact_twoChunks :
    ∃ t : Target, Reach (Target.step fun _ => []) Free
        (.boot { nodeID := "a" } true 0 0 []) twoChunks t
      ∧ (⟨1, 5, 1, 2, 3, true, [3]⟩, ⟨1, 5, 1, [1, 2, 3]⟩) ∈ t.installs
      ∧ ∀ c i, (c, i) ∈ t.installs → c.key = ⟨1, 5, 1, 3⟩ →
        i = ⟨1, 5, 1, [1, 2, 3]⟩ := by
  obtain ⟨t, hr, hmem⟩ : ∃ t : Target, Reach (Target.step fun _ => []) Free
      (.boot { nodeID := "a" } true 0 0 []) twoChunks t
      ∧ (⟨1, 5, 1, 2, 3, true, [3]⟩, ⟨1, 5, 1, [1, 2, 3]⟩) ∈ t.installs := by
    apply exec_free
    decide
  refine ⟨t, hr, hmem,
    (staging_exact hr).1 ⟨1, 5, 1, 3⟩ [1, 2, 3] rfl ?_⟩
  intro i hi c hc hk
  simp only [twoChunks, List.mem_cons, List.not_mem_nil, or_false] at hi
  rcases hi with rfl | rfl | rfl | rfl <;> injection hc with hc <;>
    subst hc
  · cases hk
  · exact ⟨[3], rfl⟩
  · exact List.prefix_rfl
  · exact List.prefix_rfl

end Rostam.Shard
