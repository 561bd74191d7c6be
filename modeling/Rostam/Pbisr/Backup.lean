/-
The backup role: the receive path and its log-matching check
(shard/pbisr/engine.go), and the install side of a snapshot transfer
(shard/pbisr/pb_snapshot.go).

A transfer is taken whole here. The chunk framing that carries it
stages bytes in memory and touches no field of the engine until the
last chunk, apart from the epoch fence every chunk runs
(`snapshotFence`).
-/
import Rostam.Pbisr.Engine

namespace Rostam.Pbisr

open Rostam.Lib

namespace Engine

-- ======== the receive path

/-- `receiveLocked`, after the epoch fence: the log-matching check and
the apply. -/
def receiveBody (e : Engine) (msg : ReplicateMsg) (ok : Bool) :
    Engine × AckMsg :=
  if msg.seq ≠ msg.prevSeq + 1 then (e, ⟨msg.epoch, msg.seq, false⟩)
  else if (msg.prevSeq, msg.prevEpoch) ≠ e.frontier then
    (e, ⟨msg.epoch, msg.seq, false⟩)
  else if ok = false then (e, ⟨msg.epoch, msg.seq, false⟩)
  else
    ({ e with
        fsm := e.fsm ++ [msg.data]
        lastApplied := msg.seq
        lastAppliedEpoch := msg.epoch
        epochAt := setEpochAt e.epochAt msg.seq msg.epoch },
      ⟨msg.epoch, msg.seq, true⟩)

/-- `receiveLocked`: the poison fence, the epoch fence, then the body.
`ok` is the outcome of the Applier call, if the body reaches it. -/
def receiveLocked (e : Engine) (msg : ReplicateMsg) (ok : Bool)
    (now : Nat) : Engine × AckMsg :=
  if e.poisoned then (e, ⟨e.epoch, msg.seq, false⟩)
  else if msg.epoch < e.epoch then (e, ⟨e.epoch, msg.seq, false⟩)
  else (e.adoptEpoch msg.epoch now).receiveBody msg ok

/-- The loop of `ReceiveGroup`: stop at the first rejection. -/
def receiveRun (now : Nat) (epoch : Nat) :
    Engine → Nat → List (ReplicateMsg × Bool) → Engine × AckMsg
  | e, lastOK, [] => (e, ⟨epoch, lastOK, true⟩)
  | e, lastOK, (msg, ok) :: rest =>
    let (e', ack) := e.receiveLocked msg ok now
    if ack.ok then receiveRun now epoch e' msg.seq rest
    else (e', ⟨epoch, lastOK, false⟩)

/-- `ReceiveGroup`: the per-message logic in order under one lock, and
one cumulative ack. -/
def receiveGroup (e : Engine) (msgs : List (ReplicateMsg × Bool))
    (now : Nat) : Engine × AckMsg :=
  match msgs with
  | [] => (e, ⟨0, 0, false⟩)
  | (m, _) :: _ =>
    if m.seq = 0 then (e, ⟨m.epoch, 0, false⟩)
    else receiveRun now m.epoch e (m.seq - 1) msgs

-- ======== snapshot install

/-- The epoch fence of `ReceiveSnapshotChunk`. -/
def snapshotFence (e : Engine) (E now : Nat) : Engine := e.adoptEpoch E now

/-- How the store calls of an install went, past the abort branch: the
FSM install failed and left anything, the durable commit failed, or
both succeeded. -/
inductive InstallOutcome where
  | fsmErr (garbage : List Data)
  | commitErr
  | ok
  deriving DecidableEq, Repr

/-- The branch of `installSnapshot` that gives up before the FSM is
touched. -/
def installAborts (e : Engine) (s : Snapshot) : Bool :=
  e.closed || decide (s.epoch < e.epoch)

/-- The FSM and every watermark set to the installed identity; what
described the discarded history is dropped. -/
def installed (e : Engine) (s : Snapshot) : Engine := ({ e with
    fsm := s.blob
    lastApplied := s.frontierSeq
    lastAppliedEpoch := s.frontierEpoch
    lastSeq := s.frontierSeq
    lastSeqEpoch := s.frontierEpoch
    epochAt := setEpochAt e.epochAt s.frontierSeq s.frontierEpoch
    pl := { (e.pl.failWhere (fun _ => true) .replicationTimeout).popAll with
      committed := s.frontierSeq }
    backlog := e.backlog.cleared RingEntry.zero
    }).clearEffISRLocked.clearLearnersLocked

/-- The critical section of `installSnapshot`. The in-memory latch goes
up with the first mutation and comes down only past `CommitInstall`. -/
def installSnapshot (e : Engine) (s : Snapshot) (out : InstallOutcome) :
    Engine :=
  if e.installAborts s then e
  else
    match out with
    | .fsmErr g => { e with poisoned := true, fsm := g }
    | .commitErr => { e.installed s with poisoned := true }
    | .ok => { e.installed s with poisoned := false }

end Engine

end Rostam.Pbisr
