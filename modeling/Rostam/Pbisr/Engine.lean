/-
The per-shard replication engine of one node: its state, its applied
frontier, and the epoch / lease transitions (shard/pbisr/engine.go).

# What is modelled how

- Epochs, seqs and clock readings are naturals; `uint64` subtraction
  that can wrap is spelled `u64Sub`.
- The Applier is the sequence `fsm` of payloads it has materialized: a
  successful `Apply` appends, an installed snapshot replaces, a failed
  install leaves anything. Whether a given `Apply` succeeds is an input
  of the step that makes it.
- A per-peer sender goroutine is its FIFO: every frame ever `handed` to
  it and how many of them it has `taken` off its channel. `base` is a
  specification field, `some (E, k)` when the sender was built by the
  learner flip of epoch `E` at high-water `k`. After a shutdown the
  senders only drain, so nothing detaches them any more.
- `outbox` holds the submissions the transport has and has not
  completed: one entry a submission, its frames in order.
- `writeMu` is the proposer's program counter: `stage` is `idle` exactly
  when no `proposeSequenced` holds it, and every other `writeMu` holder
  is a single step that asks for `idle`.
- `returned` is what the proposers past sequencing have been told: the
  record each waited on and the error its `Propose` returned.
- `epochAt` is a specification field: the epoch of the write this node
  holds at each seq, maintained wherever a frontier half moves.

Metrics (`snapTaken`, stall clocks), the durable-frontier sink, the
buffer-release hook and the window condition variable move no field
read here and are left out.
-/
import Rostam.Pbisr.Pipeline

namespace Rostam.Pbisr

open Rostam.Lib

-- ======== messages

/-- One write shipped from the primary to a backup. -/
structure ReplicateMsg where
  epoch : Nat
  seq : Nat
  prevSeq : Nat
  prevEpoch : Nat
  data : Data
  deriving DecidableEq, Repr

/-- A backup's response. -/
structure AckMsg where
  epoch : Nat
  seq : Nat
  ok : Bool
  deriving DecidableEq, Repr

/-- A catch-up handshake answer: the responder's log identity. -/
structure CatchupInfoMsg where
  epoch : Nat
  appliedSeq : Nat
  frontierSeq : Nat
  frontierEpoch : Nat
  ok : Bool
  deriving DecidableEq, Repr

/-- A whole snapshot transfer: the shipping primary's epoch, the log
identity of the state in the blob, and the blob. -/
structure Snapshot where
  epoch : Nat
  frontierSeq : Nat
  frontierEpoch : Nat
  blob : List Data
  deriving DecidableEq, Repr

-- ======== the backlog

/-- One retained write of the catch-up ring. -/
structure RingEntry where
  epoch : Nat
  seq : Nat
  prevEpoch : Nat
  data : Data
  deriving DecidableEq, Repr

/-- The zero entry of a vacant slot. -/
def RingEntry.zero : RingEntry := ⟨0, 0, 0, []⟩

/-- The bounded in-memory backlog of the most recent own writes. -/
abbrev Backlog := RingBuf RingEntry

namespace Backlog

/-- `span`: the oldest and newest retained seqs. -/
def span (b : Backlog) : Option (Nat × Nat) :=
  if b.count = 0 then none
  else some ((b.get 0).seq, (b.get (b.count - 1)).seq)

/-- `at`: the retained entry of `seq`. The index assumes the retained
seqs are dense; the seq re-check turns a hole into a miss. -/
def entryAt (b : Backlog) (seq : Nat) : Option RingEntry :=
  match span b with
  | none => none
  | some (oldest, newest) =>
    if seq < oldest ∨ newest < seq then none
    else if (b.get (seq - oldest)).seq = seq then
      some (b.get (seq - oldest))
    else none

end Backlog

-- ======== the grow driver

/-- Why a catch-up attempt ended other than by a flip. -/
inductive GrowErr where
  | epochChanged
  | ringEvicted
  | diverged
  | unverifiable
  | peerAhead
  | snapshotRejected
  | snapshotExhausted
  | other
  deriving DecidableEq, Repr

/-- Where one `StartLearnerCatchup` stands between its critical
sections. `E` is the epoch it grows at, `k` the target's acknowledged
high-water, `last` the newest seq of the group in flight. `fallback` is
the loop head of the snapshot rounds. -/
inductive CatchupPhase where
  | handshake (E : Nat)
  | check (E k kEpoch : Nat)
  | backfill (E k gap : Nat)
  | await (E k gap last : Nat)
  | flip (E k : Nat)
  | fallback (err : GrowErr)
  | snapshot (E : Nat)
  | ship (E : Nat)
  deriving DecidableEq, Repr

/-- The catch-up in progress: its target, the snapshot rounds it has
left, the epoch those rounds run at once they have begun, and its
phase. -/
structure Catchup where
  peer : NodeID
  rounds : Nat
  snapEpoch : Option Nat
  phase : CatchupPhase
  deriving DecidableEq, Repr

-- ======== the senders

/-- One peer's ordered sender. -/
structure Sender where
  base : Option (Nat × Nat)
  handed : List ReplicateMsg
  taken : Nat
  deriving DecidableEq, Repr

/-- Frames handed over and not yet submitted. -/
def Sender.pendingCount (s : Sender) : Nat := s.handed.length - s.taken

/-- Append one frame to the sender's FIFO. -/
def Sender.hand (s : Sender) (msg : ReplicateMsg) : Sender :=
  { s with handed := s.handed ++ [msg] }

-- ======== the state

/-- The proposer's program counter inside `proposeSequenced`: outside
`writeMu`, past the fence, past the local apply, or submitting the
registered frame to the peers still owed it. -/
inductive Stage where
  | idle
  | fenced (epoch : Nat) (isr : List NodeID) (data : Data)
  | applied (epoch : Nat) (isr : List NodeID) (data : Data)
  | submitting (msg : ReplicateMsg) (peers learners : List NodeID)
      (voters : Bool)
  deriving DecidableEq, Repr

/-- Who the engine is: fixed at construction. -/
structure Identity where
  nodeID : NodeID
  commitLevel : CommitLevel
  snapCapable : Bool

/-- The epoch watermark and the primary lease. -/
structure Tenure where
  epoch : Nat
  leaseEpoch : Nat
  leaseExpiry : Nat

/-- What the node has materialized, and whether that can be trusted:
the two role watermarks with their epochs, the FSM, the poison latch. -/
structure Log where
  lastSeq : Nat
  lastSeqEpoch : Nat
  lastApplied : Nat
  lastAppliedEpoch : Nat
  poisoned : Bool
  fsm : List Data
  epochAt : Nat → Nat

/-- The live ISR override and the grow learners. -/
structure Members where
  effISR : List NodeID
  effISREpoch : Nat
  learners : List NodeID
  abandonedLearners : NodeID → Option Nat
  learnerTeardown : List NodeID

/-- The peers' replication counters. -/
structure Counters where
  peerAcked : NodeID → Nat
  peerFailures : NodeID → Nat

/-- The frames on their way out and the proposer handing them over. -/
structure Outgoing where
  peerQ : NodeID → Option Sender
  outbox : List (NodeID × List ReplicateMsg)
  stage : Stage

/-- One node's engine for one shard. -/
structure Engine extends Identity, Tenure, Log, Members, Counters,
    Outgoing where
  pl : Pipeline
  backlog : Backlog
  closed : Bool
  grow : Option Catchup
  returned : List (Nat × Option ProposeErr)

/-- The default backlog capacity. -/
def defaultRingCapacity : Nat := 4096

/-- What `NewWithRingCapacity` is built from. The capacity bound is the
constructor's panic guard. -/
structure Config where
  nodeID : NodeID
  commitLevel : CommitLevel := .fullISR
  snapCapable : Bool := true
  ringCapacity : Nat := defaultRingCapacity
  capacity_ge : pipelineWindow ≤ ringCapacity := by decide

/-- `New` over a frontier and FSM read back from durable storage
(`WithRestoredFrontier`; a zero seq is a no-op), the poison latch seeded
from the durable fence (`WithSnapshotStore`). -/
def Engine.restored (c : Config) (poisoned : Bool) (seq epoch : Nat)
    (fsm : List Data) : Engine where
  nodeID := c.nodeID
  commitLevel := c.commitLevel
  snapCapable := c.snapCapable
  epoch := 0
  leaseEpoch := 0
  leaseExpiry := 0
  lastSeq := 0
  lastSeqEpoch := 0
  lastApplied := seq
  lastAppliedEpoch := if seq = 0 then 0 else epoch
  pl := Pipeline.new
  backlog := RingBuf.vacant c.ringCapacity RingEntry.zero
    (Nat.lt_of_lt_of_le (by decide) c.capacity_ge)
  effISR := []
  effISREpoch := 0
  learners := []
  abandonedLearners := fun _ => none
  learnerTeardown := []
  peerAcked := fun _ => 0
  peerFailures := fun _ => 0
  peerQ := fun _ => none
  outbox := []
  poisoned := poisoned
  closed := false
  stage := .idle
  grow := none
  returned := []
  fsm := fsm
  epochAt := fun s => if s = seq ∧ seq ≠ 0 then epoch else 0

/-- `New` on an empty data directory. -/
def Engine.new (c : Config) : Engine := Engine.restored c false 0 0 []

-- ======== the frontier

/-- `appliedFrontierLocked`: the (seq, epoch) identity of the newest
write this node has materialized, in either role. -/
def Log.frontier (l : Log) : Nat × Nat :=
  if l.lastSeq < l.lastApplied then (l.lastApplied, l.lastAppliedEpoch)
  else (l.lastSeq, l.lastSeqEpoch)

/-- The epoch of the write at one seq, updated. -/
def setEpochAt (f : Nat → Nat) (seq epoch : Nat) : Nat → Nat :=
  fun s => if s = seq then epoch else f s

namespace Engine

-- ======== leases and epochs

/-- The commit-time lease fence for a record of epoch `E`. -/
def commitFence (e : Engine) (now : Nat) (E : Nat) : Bool :=
  e.leaseEpoch == E && e.epoch == E && now < e.leaseExpiry

/-- Replace the pipeline fields. -/
def setPl (e : Engine) (pl : Pipeline) : Engine := { e with pl := pl }

/-- `sweepLocked`, on the engine's own fence. -/
def sweepLocked (e : Engine) (now : Nat) : Engine :=
  e.setPl (e.pl.sweepLocked e.commitLevel (e.commitFence now))

/-- `flushEpochLocked` at the engine's current epoch. -/
def flushEpochLocked (e : Engine) (now : Nat) : Engine := e.setPl
    (e.pl.flushEpochLocked e.epoch e.commitLevel (e.commitFence now))

/-- `clearEffISRLocked`: void the shrink override. -/
def clearEffISRLocked (e : Engine) : Engine :=
  { e with effISR := [], effISREpoch := 0 }

/-- `clearLearnersLocked`: park every learner's sender for reclaim and
empty the ship-set. -/
def clearLearnersLocked (e : Engine) : Engine :=
  { e with
    learnerTeardown := e.learnerTeardown ++ e.learners
    learners := [] }

/-- The epoch-advance body shared by `AdoptEpoch`, `GrantLease`, the
receive path and the snapshot path. -/
def advanceEpoch (e : Engine) (E now : Nat) : Engine :=
  Engine.flushEpochLocked
    { e with epoch := E }.clearEffISRLocked.clearLearnersLocked
    now

/-- `AdoptEpoch`: monotone. -/
def adoptEpoch (e : Engine) (E now : Nat) : Engine :=
  if e.epoch < E then e.advanceEpoch E now else e

/-- `GrantLease`: grant or renew; a grant below the held lease epoch is
a no-op. -/
def grantLease (e : Engine) (E expiry now : Nat) : Engine :=
  if E < e.leaseEpoch then e
  else { e with leaseEpoch := E, leaseExpiry := expiry }.adoptEpoch E now

/-- `Promote`: turn this node into the shard's primary for `E`,
continuing seq assignment from `lastApplied`. -/
def promote (e : Engine) (E expiry now : Nat) : Engine :=
  if E ≤ e.epoch then e
  else if e.poisoned then e
  else
    ({ e with
        lastSeq := e.lastApplied
        lastSeqEpoch := e.lastAppliedEpoch
        pl := { e.pl with committed := max e.pl.committed e.lastApplied }
        leaseEpoch := E
        leaseExpiry := expiry
        backlog := e.backlog.cleared RingEntry.zero }).advanceEpoch E now

/-- `LeaseValid`: the read-side lease fence. -/
def leaseValid (e : Engine) (now : Nat) : Bool :=
  !e.poisoned && e.leaseEpoch == e.epoch && now < e.leaseExpiry

/-- `CatchupInfo`: a poisoned node answers not-OK with zeroed
watermarks. -/
def catchupInfo (e : Engine) : CatchupInfoMsg :=
  if e.poisoned then ⟨e.epoch, 0, 0, 0, false⟩
  else ⟨e.epoch, e.lastApplied, e.frontier.1, e.frontier.2, true⟩

-- ======== peer bookkeeping

/-- Detach every sender `keep` leaves out; their parked frames are
discarded unsubmitted. -/
def dropSenders (e : Engine) (keep : NodeID → Bool) : Engine :=
  { e with peerQ := fun p =>
      if e.closed || keep p then e.peerQ p else none }

/-- `dropPeerLocked`. -/
def dropPeerLocked (e : Engine) (peer : NodeID) : Engine :=
  e.dropSenders fun p => p ≠ peer

/-- Install a sender for `peer`. -/
def setSender (e : Engine) (peer : NodeID) (s : Sender) : Engine :=
  { e with peerQ := fun p => if p = peer then some s else e.peerQ p }

/-- `notePeerFailureLocked`. -/
def notePeerFailureLocked (e : Engine) (peer : NodeID) : Engine :=
  { e with peerFailures := fun p =>
      if p = peer then e.peerFailures p + 1 else e.peerFailures p }

/-- `notePeerSuccessLocked`. -/
def notePeerSuccessLocked (e : Engine) (peer : NodeID) : Engine :=
  { e with peerFailures := fun p =>
      if p = peer then 0 else e.peerFailures p }

/-- `creditPeerAckedLocked`: a monotone maximum. -/
def creditPeerAckedLocked (e : Engine) (peer : NodeID) (seq : Nat) :
    Engine :=
  { e with peerAcked := fun p =>
      if p = peer then max (e.peerAcked p) seq else e.peerAcked p }

end Engine

end Rostam.Pbisr
