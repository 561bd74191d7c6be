/-
The receive side of a snapshot transfer: the chunks of
`ReceiveSnapshotChunk` (shard/pbisr/pb_snapshot.go), staged in memory
until the last one triggers an install.

The stage belongs to the engine and no other section touches it, so it is
kept beside the replica that owns it. A chunk that completes a transfer
calls `installSnapshot` with what was staged; `installs` is the list of
those calls, each with the chunk that made it, and an install attempt
(`BeginInstall` and what follows) takes its snapshot from there. `parse`
is what the store makes of a blob.
-/
import Rostam.Shard.Node

namespace Rostam.Shard

open Rostam.Lib Rostam.Pbisr

/-- `pbSnapshotMaxBytes`. -/
def pbSnapshotMaxBytes : Nat := 2 ^ 32

/-- One frame of a snapshot transfer. -/
structure SnapshotChunk where
  epoch : Nat
  frontierSeq : Nat
  frontierEpoch : Nat
  offset : Nat
  total : Nat
  final : Bool
  data : Bytes
  deriving DecidableEq, Repr

/-- What identifies a transfer. -/
structure TransferKey where
  epoch : Nat
  frontierSeq : Nat
  frontierEpoch : Nat
  total : Nat
  deriving DecidableEq, Repr

def SnapshotChunk.key (c : SnapshotChunk) : TransferKey :=
  ⟨c.epoch, c.frontierSeq, c.frontierEpoch, c.total⟩

/-- `snapshotStage`. -/
structure SnapshotStage where
  key : TransferKey
  buf : Bytes
  deriving DecidableEq, Repr

/-- The arguments of an `installSnapshot` call. -/
structure Install where
  shipEpoch : Nat
  fseq : Nat
  fepoch : Nat
  blob : Bytes
  deriving DecidableEq, Repr

/-- What the store makes of the call. -/
def Install.snapshot (parse : Bytes → List Data) (i : Install) :
    Snapshot :=
  ⟨i.shipEpoch, i.fseq, i.fepoch, parse i.blob⟩

/-- A replica that receives transfers. -/
structure Target where
  node : Node
  snapStage : Option SnapshotStage
  installs : List (SnapshotChunk × Install)

namespace Target

def boot (cfg : Config) (dir : Bool) (seq epoch : Nat)
    (fsm : List Data) : Target :=
  ⟨Node.boot cfg dir seq epoch fsm, none, []⟩

/-- The declared extent is within bounds. -/
def fits (c : SnapshotChunk) : Bool :=
  !(decide (pbSnapshotMaxBytes < c.total) || decide (c.total < c.offset)
    || decide (c.total - c.offset < c.data.length))

/-- The stage a chunk continues, or starts at offset 0. -/
def stageFor (st : Option SnapshotStage) (c : SnapshotChunk) :
    Option SnapshotStage :=
  match st with
  | some s =>
    if s.key = c.key then some s
    else if c.offset = 0 then some ⟨c.key, []⟩
    else none
  | none => if c.offset = 0 then some ⟨c.key, []⟩ else none

/-- The epoch fence of `ReceiveSnapshotChunk`, past the stale check: a
staged transfer of an older epoch is void. -/
def adopt (t : Target) (E now : Nat) : Target :=
  if t.node.eng.epoch < E then
    { t with
      node := { t.node with eng := t.node.eng.snapshotFence E now }
      snapStage := none }
  else t

def drop (t : Target) : Target := { t with snapStage := none }

/-- The staging of a chunk that passed the fence and fits. -/
def accumulate (t : Target) (c : SnapshotChunk) : Target × Option AckMsg :=
  let nack : AckMsg := ⟨c.epoch, c.frontierSeq, false⟩
  match stageFor t.snapStage c with
  | none => (t.drop, some nack)
  | some st =>
    if c.offset ≠ st.buf.length then (t.drop, some nack)
    else
      let buf := st.buf ++ c.data
      if c.final = false then
        ({ t with snapStage := some ⟨st.key, buf⟩ },
          some ⟨c.epoch, c.frontierSeq, true⟩)
      else if buf.length ≠ c.total then (t.drop, some nack)
      else
        ({ t.drop with installs := t.installs
            ++ [(c, ⟨c.epoch, c.frontierSeq, c.frontierEpoch, buf⟩)] },
          none)

/-- `ReceiveSnapshotChunk`, up to the install it may call; the ack is
then the install's. -/
def receiveSnapshotChunk (t : Target) (c : SnapshotChunk) (now : Nat) :
    Target × Option AckMsg :=
  if c.epoch < t.node.eng.epoch then
    (t.drop, some ⟨t.node.eng.epoch, c.frontierSeq, false⟩)
  else if fits c then (t.adopt c.epoch now).accumulate c
  else ((t.adopt c.epoch now).drop, some ⟨c.epoch, c.frontierSeq, false⟩)

end Target

/-- The steps of a target: a chunk arrives, a called install raises its
fence, or the replica takes any other step of its own. -/
inductive TargetInput where
  | chunk (c : SnapshotChunk) (now : Nat)
  | beginInstall (i : Nat) (out : RaiseOutcome)
  | node (i : NodeInput)

def TargetInput.chunk? : TargetInput → Option SnapshotChunk
  | .chunk c _ => some c
  | _ => none

namespace Target

/-- One step. A restart loses the stage. -/
def step (parse : Bytes → List Data) (t : Target) : TargetInput → Option Target
  | .chunk c now => some (t.receiveSnapshotChunk c now).1
  | .beginInstall i out =>
    (t.installs[i]?).map fun x =>
      { t with node := t.node.beginInstall (x.2.snapshot parse) out }
  | .node i =>
    match i with
    | .beginInstall _ _ => none
    | .restart _ _ _ =>
      (t.node.step i).map fun n =>
        { t with node := n, snapStage := none }
    | _ => (t.node.step i).map fun n => { t with node := n }

/-- Deliver chunks one after the other. -/
def receiveAll (t : Target) (cs : List (SnapshotChunk × Nat)) : Target :=
  cs.foldl (fun t c => (t.receiveSnapshotChunk c.1 c.2).1) t

end Target

end Rostam.Shard
