/-
The poison fence: a replica whose FSM is neither its own history nor a
completely installed snapshot refuses to serve.

One disjunction carries it. The FSM is the history it should be, or the
in-memory latch is up and — where there is a directory to keep it in —
so is the durable marker, which is what a restart seeds the latch from.
Two steps can take the marker down under a bad FSM: the lowering of an
attempt that gave up, and a locked section that runs after another
attempt's commit removed its marker. `FenceSafe` keeps off both, and off
a restart that cannot read the marker.
-/
import Rostam.Shard.Node
import Rostam.Pbisr.Proofs.Log

namespace Rostam.Shard

open Rostam.Lib Rostam.Pbisr

-- ======== the marker

example : checksumIEEE [0x31, 0x32, 0x33, 0x34, 0x35, 0x36, 0x37, 0x38,
    0x39] = 0xCBF43926 := by decide +kernel

namespace RestoreFence

variable {f : RestoreFence}

/-- A marker that can be read is up exactly when it is there. -/
theorem raised_up (f : RestoreFence) :
    (f.raised true).2.2 = (f.dir && f.file.isSome) := by
  unfold raised
  cases hd : f.dir with
  | false => rfl
  | true =>
    cases hf : f.file with
    | none => rfl
    | some b =>
      simp only [Bool.true_eq_false, if_false, Option.isSome_some,
        Bool.and_self]
      split <;> rfl

theorem raise_dir (f : RestoreFence) (seq epoch : Nat)
    (out : RaiseOutcome) : (f.raise seq epoch out).1.dir = f.dir := by
  unfold raise
  split
  · rfl
  · split <;> rfl

/-- Raising never takes a marker down. -/
theorem raise_keeps (seq epoch : Nat) (out : RaiseOutcome)
    (h : f.file.isSome = true) :
    (f.raise seq epoch out).1.file.isSome = true := by
  unfold raise
  split
  · exact h
  · split
    · rfl
    · rfl
    · exact h

end RestoreFence

namespace Node

variable {n n' : Node} {i : NodeInput}

-- ======== the invariant

/-- The step keeps the marker under a bad FSM: an attempt that gave up
lowers it only on a node that is not poisoned, a locked section that
touches the FSM still finds its own marker up, and a restart can read
it. -/
def FenceSafe (n : Node) : NodeInput → Prop
  | .abortInstall _ => n.eng.poisoned = false
  | .install s _ => n.eng.installAborts s = false → n.fence.dir = true →
      n.fence.file.isSome = true
  | .restart _ _ readable => n.fence.file.isSome = true → readable = true
  | _ => True

/-- The FSM is what it should be, or both marks say it is not. -/
def Guarded (n : Node) : Prop := n.eng.fsm = n.history ∨ n.eng.poisoned = true
      ∧ (n.fence.dir = true → n.fence.file.isSome = true)

/-- The engine leaves the fence alone. -/
theorem guarded_runEngine {ev : Event} (hg : n.Guarded)
    (h : n.runEngine ev = some n') : n'.Guarded := by
  unfold runEngine at h
  split at h
  · cases h
  · next hno =>
    rw [Option.map_eq_some_iff] at h
    obtain ⟨e', he, rfl⟩ := h
    obtain ⟨⟨ds, hds⟩, hpo⟩ := Engine.step_appends he hno
    rcases hg with hg | ⟨h1, h2⟩
    · left
      show e'.fsm = n.history ++ e'.fsm.drop n.eng.fsm.length
      rw [hds, List.drop_left, hg]
    · exact .inr ⟨hpo.trans h1, h2⟩

/-- A raised marker unguards nothing. -/
theorem guarded_beginInstall (hg : n.Guarded) (s : Snapshot)
    (out : RaiseOutcome) : (n.beginInstall s out).Guarded := by
  have hkeep : n.eng.fsm = n.history ∨ n.eng.poisoned = true
        ∧ ((n.fence.raise s.frontierSeq s.frontierEpoch out).1.dir = true →
          (n.fence.raise s.frontierSeq s.frontierEpoch
            out).1.file.isSome = true) := by
    rcases hg with hg | ⟨h1, h2⟩
    · exact .inl hg
    · refine .inr ⟨h1, fun hd => ?_⟩
      rw [RestoreFence.raise_dir] at hd
      exact RestoreFence.raise_keeps _ _ _ (h2 hd)
  unfold beginInstall
  simp only
  split
  · exact hkeep
  · exact hkeep

/-- Past the abort branch the latch goes up with the first mutation. -/
theorem guarded_install {s : Snapshot} {out : StoreRun} (hg : n.Guarded)
    (hk : n.FenceSafe (.install s out)) (h : n.install s out = some n') :
    n'.Guarded := by
  unfold install at h
  split at h
  · simp only at h
    split at h
    · cases h
      exact hg
    · next hab =>
      have hab' : n.eng.installAborts s = false := by simpa using hab
      have hlog := fun o => Engine.installSnapshot_log n.eng s o hab'
      cases out with
      | fsmErr g =>
        cases h
        refine .inr ⟨?_, hk hab'⟩
        show (n.eng.installSnapshot s (.fsmErr g)).toLog.poisoned = true
        rw [hlog]
        rfl
      | commit low =>
        cases h
        left
        show (n.eng.installSnapshot s _).toLog.fsm = s.blob
        rw [hlog]
        split <;> rfl
  · cases h

/-- A restarted node is poisoned by its marker. -/
theorem guarded_restart {seq epoch : Nat} {readable : Bool}
    (hg : n.Guarded) (hk : n.FenceSafe (.restart seq epoch readable)) :
    (n.restart seq epoch readable).Guarded := by
  unfold restart
  split
  · next hd =>
    rcases hg with hg | ⟨-, hfile⟩
    · exact .inl hg
    · -- The marker survived, so the latch comes back up.
      have hup := hfile hd
      have hr : readable = true := hk hup
      subst hr
      refine .inr ⟨?_, hfile⟩
      show (n.fence.raised true).2.2 = true
      rw [RestoreFence.raised_up, hd, hup]
      rfl
  · exact .inl rfl

/-- Every input keeps the node guarded. -/
theorem step_guarded (hg : n.Guarded) (hk : n.FenceSafe i)
    (h : n.step i = some n') : n'.Guarded := by
  cases i with
  | run ev => exact guarded_runEngine hg h
  | beginInstall s out =>
    cases h
    exact guarded_beginInstall hg s out
  | install s out => exact guarded_install hg hk h
  | abortInstall out =>
    simp only [step, abortInstall] at h
    split at h
    · cases h
    · cases h
      rcases hg with hg | ⟨h1, -⟩
      · exact .inl hg
      · have hpo : n.eng.poisoned = false := hk
        rw [h1] at hpo
        cases hpo
  | restart seq epoch readable =>
    cases h
    exact guarded_restart hg hk

-- ======== main

/-- The engine refuses every service. -/
structure Refuses (e : Engine) : Prop where
  propose : ∀ primary isr minISR now, e.proposeRefusal primary isr minISR now
      = some (.err .snapshotPending)
  receive : ∀ msg ok now,
    e.receiveLocked msg ok now = (e, ⟨e.epoch, msg.seq, false⟩)
  lease : ∀ now, e.leaseValid now = false
  catchup : e.catchupInfo.ok = false
  promote : ∀ E expiry now, e.promote E expiry now = e

/-- A poisoned engine serves nobody. -/
theorem refuses_of_poisoned {e : Engine} (h : e.poisoned = true) :
    Refuses e where
  propose := by
    intro primary isr minISR now
    unfold Engine.proposeRefusal
    rw [if_pos h]
  receive := by
    intro msg ok now
    unfold Engine.receiveLocked
    rw [if_pos h]
  lease := by
    intro now
    unfold Engine.leaseValid
    rw [h]
    rfl
  catchup := by
    unfold Engine.catchupInfo
    rw [if_pos h]
  promote := by
    intro E expiry now
    unfold Engine.promote
    split
    · rfl
    · rfl

/-- **The poison fence.** In every fence-safe run of a replica, whatever
its installs do and wherever it restarts, an FSM that is not its history
sits behind a refusing engine. -/
theorem poison_fence {cfg : Config} {dir : Bool} {seq epoch : Nat}
    {fsm : List Data} {tr : List NodeInput}
    (hr : Reach Node.step FenceSafe (boot cfg dir seq epoch fsm) tr n)
    (hbad : n.eng.fsm ≠ n.history) : Refuses n.eng := by
  have hg : n.Guarded := hr.stateInvariant (P := Guarded) (.inl rfl)
    fun _ _ _ hg hk hs => step_guarded hg hk hs
  rcases hg with hg | ⟨hpo, -⟩
  · exact absurd hg hbad
  · exact refuses_of_poisoned hpo

/-- A first attempt fails inside `InstallFSM`, the process restarts. -/
def failedInstall : List NodeInput :=
  [.beginInstall ⟨1, 3, 1, [[1], [2], [3]]⟩ .ok,
    .install ⟨1, 3, 1, [[1], [2], [3]]⟩ (.fsmErr [[9]]),
    .restart 0 0 true]

/-- A check for `FenceSafe` that refuses every abort. -/
def fenceCheck (n : Node) : NodeInput → Bool
  | .abortInstall _ => false
  | .install _ _ => n.fence.file.isSome
  | .restart _ _ readable => readable
  | _ => true

theorem fenceCheck_safe (n : Node) (i : NodeInput)
    (h : fenceCheck n i = true) : FenceSafe n i := by
  cases i <;> simp_all [fenceCheck, FenceSafe]

theorem poison_fence_failedInstall :
    ∃ n, Reach Node.step FenceSafe (boot { nodeID := "b" } true 0 0 [])
        failedInstall n
      ∧ n.eng.fsm ≠ n.history ∧ Refuses n.eng := by
  obtain ⟨n, hr, hbad⟩ : ∃ n, Reach Node.step FenceSafe
      (boot { nodeID := "b" } true 0 0 []) failedInstall n
      ∧ n.eng.fsm ≠ n.history := by
    apply exec_decide fenceCheck_safe
    decide +kernel
  exact ⟨n, hr, hbad, poison_fence hr hbad⟩

/-- A second attempt is overtaken by a newer epoch between its
`BeginInstall` and the locks: it lowers the marker of the first, and the
restarted node serves the half-installed state. -/
theorem aborted_install_unfences :
    ∃ n, Reach Node.step Free (boot { nodeID := "b" } true 0 0 [])
        [.beginInstall ⟨1, 3, 1, [[1], [2], [3]]⟩ .ok,
          .install ⟨1, 3, 1, [[1], [2], [3]]⟩ (.fsmErr [[9]]),
          .beginInstall ⟨1, 3, 1, [[1], [2], [3]]⟩ .ok,
          .run ⟨0, .adoptEpoch 2⟩,
          .install ⟨1, 3, 1, [[1], [2], [3]]⟩ (.commit .ok),
          .abortInstall .ok, .restart 0 0 true] n
      ∧ n.eng.fsm ≠ n.history ∧ n.eng.poisoned = false
      ∧ n.eng.catchupInfo.ok = true :=
  exec_free (by decide +kernel)

end Node

end Rostam.Shard
