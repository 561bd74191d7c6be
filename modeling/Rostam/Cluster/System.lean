/-
One shard of a cluster: the engines, the committed meta log, every
node's view of it, and the drivers that read the one and submit to the
other (cluster/pb_wiring.go, pb_failover.go, pb_shrink.go, pb_grow.go).

# What is modelled how

- `log` is what the meta-Raft group has committed; `view n` is how much
  of it node `n` has applied. A node reads its own view, at any lag.
- A submitted entry may be committed at any later time or never: a
  driver that gave up waiting does not take it back.
- A tick is one goroutine, so its program counter is kept per node. What
  it read at the top, with the length of the log it read it from, stays
  in the counter until the tick submits; engines, writes and the other
  driver run in between.
- The lease keeper grants or promotes on the primary and epoch of some
  view the node had; a proposal carries the primary and the ISR its
  node's control plane showed before it took the engine's locks.
- `flips` is a specification field: the learner flips that completed,
  each with its engine's epoch and the length of the log at that moment.

Left out, since they only take runs away: the grow driver's stability
gate, the lease keeper's read barrier, leadership of the meta group, and
the liveness tracker behind `lastRenewNs`. Learner upkeep at the top of
the grow tick may run at any time here.
-/
import Rostam.Cluster.Drivers
import Rostam.Cluster.Replicas

namespace Rostam.Cluster

open Rostam.Lib Rostam.Pbisr

-- ======== the state

/-- What a driver read, and from how much of the log. -/
structure Read where
  shard : Shard
  upTo : Nat
  deriving DecidableEq, Repr

/-- Where the shrink tick of a node stands. -/
inductive ShrinkPc where
  | idle
  | read (r : Read)
  | narrowing (r : Read)
  | reconciled (r : Read)
  deriving DecidableEq, Repr

/-- Where the grow tick of a node stands. -/
inductive GrowPc where
  | idle
  | read (r : Read)
  | widening (r : Read)
  | settled (r : Read)
  | fresh (r : Read)
  | compensating (r : Read)
  | growing (r : Read)
  | catching (r : Read) (target : NodeID)
  | flipped (r : Read) (target : NodeID)
  | submitted (r : Read) (target : NodeID)
  deriving DecidableEq, Repr

/-- A submitted entry, and how much of the log its submitter had read. -/
structure Proposal where
  op : MetaOp
  upTo : Nat
  deriving DecidableEq, Repr

/-- A completed learner flip: which node flipped whom, in which epoch
of its engine, over how much of the committed log. -/
structure Flip where
  node : NodeID
  target : NodeID
  epoch : Nat
  len : Nat
  deriving DecidableEq, Repr

/-- One shard of a cluster. -/
structure System where
  reps : Replicas
  minISR : Nat
  placement : List NodeID
  log : MetaLog
  view : NodeID → Nat
  proposed : List Proposal
  baseline : NodeID → Option (Nat × List NodeID)
  shrink : NodeID → ShrinkPc
  grow : NodeID → GrowPc
  flips : List Flip

/-- A section of the whole system. -/
inductive Label where
  | engine (a : Act)
  | advance (n : NodeID)
  | commit (i : Nat)
  | failover (n : NodeID) (nowNs failoverTimeout lastRenewNs : Int)
      (reachable : List NodeID)
  | shrinkRead (n : NodeID)
  | shrinkReconcile (n : NodeID)
  | shrinkApply (n : NodeID) (now : Nat)
  | shrinkRequest (n : NodeID) (minFailures : Nat)
  | growRead (n : NodeID)
  | growReconcile (n : NodeID)
  | growApply (n : NodeID)
  | growBarrier (n : NodeID)
  | growConfirm (n : NodeID)
  | growCompensate (n : NodeID) (m : NodeID)
  | growCatchup (n : NodeID) (target : NodeID)
  | growGiveUp (n : NodeID)
  | growSubmit (n : NodeID)
  | growSubmitted (n : NodeID) (ok : Bool)
  | growDone (n : NodeID)
  deriving DecidableEq, Repr

/-- Overwrite one node's entry. -/
def setAt {α : Type} (f : NodeID → α) (n : NodeID) (a : α) : NodeID → α :=
  fun m => if m = n then a else f m

namespace System

/-- Blank engines under a meta log that holds the seed of epoch 1. -/
def seeded (c : Config) (minISR : Nat) (placement : List NodeID)
    (primary : NodeID) (isr : List NodeID) : System where
  reps := .blank c
  minISR := minISR
  placement := placement
  log := [.setShardEpoch 1 primary isr]
  view := fun _ => 0
  proposed := []
  baseline := fun _ => none
  shrink := fun _ => .idle
  grow := fun _ => .idle
  flips := []

-- ======== the reads

/-- The committed control state. -/
def committed (S : System) : Shard := S.log.state S.minISR

/-- The control state node `n` has applied. -/
def viewOf (S : System) (n : NodeID) : Shard :=
  MetaLog.state S.minISR (S.log.take (S.view n))

/-- Some state node `n` has applied so far passes the test. -/
def saw (S : System) (n : NodeID) (p : Shard → Bool) : Bool :=
  (List.range (S.view n + 1)).any fun k =>
    p (MetaLog.state S.minISR (S.log.take k))

/-- `pbCandidateHighWater`: a poisoned or unreachable candidate is not
verifiable. -/
def highWater (S : System) (reachable : List NodeID) (_ : Nat)
    (m : NodeID) : Nat × Bool :=
  if m ∉ reachable then (0, false)
  else
    let info := (S.reps.eng m).catchupInfo
    if info.ok then (info.appliedSeq, true) else (0, false)

/-- What the failover ticker hands `decidePBPromotions`. -/
def liveness (st : Shard) (lastRenewNs : Int) : PbShardLiveness :=
  ⟨0, st.epoch, st.primary, st.isr, lastRenewNs⟩

/-- `StalledPeers`, among the members `decidePBShrink` can drop. -/
def stalledPeers (e : Engine) (minFailures : Nat) (isr : List NodeID) :
    List NodeID :=
  isr.filter fun p => max 1 minFailures ≤ e.peerFailures p

/-- A flip of this section completes, for the learner it names: the
final delta was cut whole under both locks. -/
def flipReady (e : Engine) (now : Nat) : Option NodeID :=
  match e.stage, e.grow with
  | .idle, some ⟨peer, _, _, .flip E k⟩ =>
    if e.closed ∨ e.epoch ≠ E ∨ e.leaseEpoch ≠ E ∨ e.leaseExpiry ≤ now
        ∨ pipelineWindow < u64Sub e.lastSeq k then none
    else
      match ringDeltaLocked e.backlog (k + 1) e.lastSeq with
      | some delta =>
        if delta.length = u64Sub e.lastSeq k then some peer else none
      | none => none
  | _, _ => none

-- ======== the sections

/-- The control plane lets node `a.node` take this section by itself.
No node has the empty id, which an unseeded shard has for primary. -/
def permits (S : System) (a : Act) : Bool :=
  let n := a.node
  decide (n ≠ "") && match a.ev.input with
  | .fence primary isr minISR _ =>
    S.saw n (fun st => decide (st.primary = primary))
      && S.saw n (fun st => decide (st.isr = isr))
      && decide (minISR = S.minISR)
  | .grantLease E _ | .promote E _ => S.saw n fun st =>
    decide (st.primary = n) && decide (st.epoch = E)
  | .adoptEpoch E => S.saw n fun st => decide (st.epoch = E)
  | .shrinkISR .. | .growISR .. | .growStart _ => false
  | _ => true

/-- The section can run. -/
def enabled (S : System) : Label → Bool
  | .engine a => S.permits a
  | .advance n => decide (S.view n < S.log.length)
  | .commit i => decide (i < S.proposed.length)
  | .failover .. => true
  | .shrinkRead n => decide (S.shrink n = .idle) && decide (n ≠ "")
  | .shrinkReconcile n => match S.shrink n with
      | .read _ => true
      | _ => false
  | .shrinkApply n _ => match S.shrink n with
      | .narrowing _ => true
      | _ => false
  | .shrinkRequest n _ => match S.shrink n with
      | .reconciled _ => true
      | _ => false
  | .growRead n => decide (S.grow n = .idle) && decide (n ≠ "")
      && decide ((S.viewOf n).primary = n)
  | .growReconcile n => match S.grow n with
      | .read _ => true
      | _ => false
  | .growApply n => match S.grow n with
      | .widening _ => true
      | _ => false
  | .growBarrier n => match S.grow n with
      | .settled _ => decide (S.view n = S.log.length)
      | _ => false
  | .growConfirm n => match S.grow n with
      | .fresh _ => true
      | _ => false
  | .growCompensate n m => match S.grow n with
      | .compensating r => decide (m ∈ r.shard.isr) && decide (m ≠ n)
          && ((S.reps.eng n).abandonedLearners m).isSome
      | _ => false
  | .growCatchup n target => match S.grow n with
      | .growing r =>
        decide (target ∈ decidePBGrow S.placement r.shard.isr)
      | _ => false
  | .growGiveUp n => match S.grow n with
      | .catching _ _ => (S.reps.eng n).grow.isNone
      | _ => false
  | .growSubmit n => match S.grow n with
      | .flipped _ _ => true
      | _ => false
  | .growSubmitted n _ => match S.grow n with
      | .submitted _ _ => true
      | _ => false
  | .growDone n => match S.grow n with
      | .settled _ | .compensating _ | .growing _ => true
      | _ => false

/-- The pre-submit guard: `target` is still a live, un-abandoned
learner. -/
def submittable (e : Engine) (target : NodeID) : Bool :=
  decide (target ∈ e.learners) && (e.abandonedLearners target).isNone

/-- The engine section the label runs, if it runs one. -/
def act (S : System) : Label → Option Act
  | .engine a => some a
  | .shrinkApply n now => match S.shrink n with
      | .narrowing r =>
        some ⟨n, "", ⟨now, .shrinkISR r.shard.epoch r.shard.isr⟩⟩
      | _ => none
  | .growApply n => match S.grow n with
      | .widening r =>
        some ⟨n, "", ⟨0, .growISR r.shard.epoch r.shard.isr⟩⟩
      | _ => none
  | .growCatchup n target => some ⟨n, "", ⟨0, .growStart target⟩⟩
  | .growSubmit n => match S.grow n with
      | .flipped _ target =>
        if submittable (S.reps.eng n) target then none
        else some ⟨n, "", ⟨0, .abortLearnerCatchup target⟩⟩
      | _ => none
  | .growSubmitted n false => match S.grow n with
      | .submitted _ target =>
        some ⟨n, "", ⟨0, .abortLearnerCatchup target⟩⟩
      | _ => none
  | _ => none

/-- `submitSetShardISR`. -/
def submit (S : System) (r : Read) (isr : List NodeID) : System :=
  { S with proposed := S.proposed
      ++ [⟨.setShardISR r.shard.epoch isr, r.upTo⟩] }

/-- The baseline as a reconcile leaves it. -/
def setBaseline (S : System) (n : NodeID) (r : Read) : System :=
  { S with baseline := setAt S.baseline n (some (r.shard.epoch, r.shard.isr)) }

def setShrink (S : System) (n : NodeID) (pc : ShrinkPc) : System :=
  { S with shrink := setAt S.shrink n pc }

def setGrow (S : System) (n : NodeID) (pc : GrowPc) : System :=
  { S with grow := setAt S.grow n pc }

/-- First half of the shrink reconcile: compare the read ISR with the
baseline. -/
def shrinkReconcile (S : System) (n : NodeID) (r : Read) : System :=
  if (S.reps.eng n).epoch ≠ r.shard.epoch then S.setShrink n .idle
  else
    match S.baseline n with
    | none => (S.setBaseline n r).setShrink n (.reconciled r)
    | some (epoch, isr) =>
      if epoch ≠ r.shard.epoch then
        (S.setBaseline n r).setShrink n (.reconciled r)
      else if isStrictSubset r.shard.isr isr then
        S.setShrink n (.narrowing r)
      else S.setShrink n (.reconciled r)

/-- First half of the grow reconcile. -/
def growReconcile (S : System) (n : NodeID) (r : Read) : System :=
  if (S.reps.eng n).epoch ≠ r.shard.epoch then S.setGrow n .idle
  else
    match S.baseline n with
    | none => (S.setBaseline n r).setGrow n (.settled r)
    | some (epoch, isr) =>
      if epoch ≠ r.shard.epoch then
        (S.setBaseline n r).setGrow n (.settled r)
      else if isStrictSubset isr r.shard.isr then
        S.setGrow n (.widening r)
      else S.setGrow n (.settled r)

/-- The re-read behind the barrier: on the settled signature the tick
goes on, to the compensation first. -/
def growConfirm (S : System) (n : NodeID) (r : Read) : System :=
  let st := S.viewOf n
  let e := S.reps.eng n
  if st.primary ≠ n ∨ e.epoch ≠ st.epoch
      ∨ sameSig st.epoch st.isr r.shard.epoch r.shard.isr = false then
    S.setGrow n .idle
  else if st.isr.any fun m => decide (m ≠ n)
      && (e.abandonedLearners m).isSome then
    S.setGrow n (.compensating ⟨st, S.view n⟩)
  else S.setGrow n (.growing ⟨st, S.view n⟩)

/-- A completed flip moves the tick that waits on it. -/
def noteFlip (S : System) (a : Act) : System :=
  match a.ev.input, flipReady (S.reps.eng a.node) a.ev.now with
  | .flip, some peer =>
    let S' := { S with flips := S.flips
      ++ [⟨a.node, peer, (S.reps.eng a.node).epoch, S.log.length⟩] }
    match S.grow a.node with
    | .catching r target =>
      if target = peer then S'.setGrow a.node (.flipped r target)
      else S'
    | _ => S'
  | _, _ => S

/-- What the section does outside the engines. -/
def next (S : System) : Label → System
  | .engine a => S.noteFlip a
  | .advance n => { S with view := setAt S.view n (S.view n + 1) }
  | .commit i => match S.proposed[i]? with
      | some p => { S with
          log := S.log ++ [p.op], proposed := S.proposed.eraseIdx i }
      | none => S
  | .failover n nowNs failoverTimeout lastRenewNs reachable =>
    let promos := decidePBPromotions
      [liveness (S.viewOf n) lastRenewNs] nowNs failoverTimeout
      (some (S.highWater reachable))
    { S with proposed := S.proposed ++ promos.map fun p =>
        ⟨.setShardEpoch p.newEpoch p.newPrimary [], S.view n⟩ }
  | .shrinkRead n =>
    if (S.viewOf n).primary ≠ n then
      { S with baseline := setAt S.baseline n none }
    else S.setShrink n (.read ⟨S.viewOf n, S.view n⟩)
  | .shrinkReconcile n => match S.shrink n with
      | .read r => S.shrinkReconcile n r
      | _ => S
  | .shrinkApply n _ => match S.shrink n with
      | .narrowing r => (S.setBaseline n r).setShrink n (.reconciled r)
      | _ => S
  | .shrinkRequest n minFailures => match S.shrink n with
      | .reconciled r =>
        let stalled := stalledPeers (S.reps.eng n) minFailures r.shard.isr
        match decidePBShrink n r.shard.isr stalled S.minISR with
        | some newISR => (S.submit r newISR).setShrink n .idle
        | none => S.setShrink n .idle
      | _ => S
  | .growRead n => S.setGrow n (.read ⟨S.viewOf n, S.view n⟩)
  | .growReconcile n => match S.grow n with
      | .read r => S.growReconcile n r
      | _ => S
  | .growApply n => match S.grow n with
      | .widening r => (S.setBaseline n r).setGrow n (.settled r)
      | _ => S
  | .growBarrier n => match S.grow n with
      | .settled r => S.setGrow n (.fresh r)
      | _ => S
  | .growConfirm n => match S.grow n with
      | .fresh r => S.growConfirm n r
      | _ => S
  | .growCompensate n m => match S.grow n with
      | .compensating r =>
        S.submit r (r.shard.isr.filter fun x => x ≠ m)
      | _ => S
  | .growCatchup n target => match S.grow n with
      | .growing r => S.setGrow n (.catching r target)
      | _ => S
  | .growGiveUp n => match S.grow n with
      | .catching r _ => S.setGrow n (.growing r)
      | _ => S
  | .growSubmit n => match S.grow n with
      | .flipped r target =>
        if submittable (S.reps.eng n) target then
          (S.submit r (r.shard.isr ++ [target])).setGrow n
            (.submitted r target)
        else S.setGrow n (.growing r)
      | _ => S
  | .growSubmitted n ok => match S.grow n with
      | .submitted r _ =>
        if ok then S.setGrow n .idle else S.setGrow n (.growing r)
      | _ => S
  | .growDone n => S.setGrow n .idle

/-- One section of the whole system. -/
def step (S : System) (l : Label) : Option System :=
  if S.enabled l then
    match S.act l with
    | none => some (S.next l)
    | some a => (S.reps.step a).map fun R => { S.next l with reps := R }
  else none

end System

end Rostam.Cluster
