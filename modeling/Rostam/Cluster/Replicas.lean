/-
The engines of one shard and the messages between them.

Every engine takes its critical sections one at a time in any order;
what a section puts on the wire stays there, so a message may arrive
late, twice, out of order or never. A section that consumes an answer is
enabled only on an answer some engine gave:

- a frame or group is received off a submission addressed to the
  receiver, and its ack is kept with the submission it answers;
- a completion carries an ack of that very submission, or a transport
  error at any time;
- a handshake is answered with the target's log identity, as it is now
  or as it was after one of its earlier sections;
- a snapshot is installed as it was taken, once its epoch fence ran.

The clock reading of a section is data of its label: no two nodes share
a clock.
-/
import Rostam.Pbisr.Step

namespace Rostam.Cluster

open Rostam.Lib Rostam.Pbisr

-- ======== the state

/-- One submission: who shipped what to whom. -/
structure Shipment where
  src : NodeID
  dst : NodeID
  msgs : List ReplicateMsg
  deriving DecidableEq, Repr

/-- A taken snapshot on its way to the node it was taken for. -/
structure Transfer where
  src : NodeID
  dst : NodeID
  snap : Snapshot
  deriving DecidableEq, Repr

/-- The engines by node, and everything they have put on the wire. -/
structure Replicas where
  eng : NodeID → Engine
  sent : List Shipment
  acks : List (Shipment × AckMsg)
  transfers : List Transfer
  installs : List (Transfer × AckMsg)
  infos : List (NodeID × CatchupInfoMsg)

/-- A critical section of one node. `src` is the other end of a section
that takes a message. -/
structure Act where
  node : NodeID
  src : NodeID
  ev : Event
  deriving DecidableEq, Repr

namespace Replicas

/-- Blank engines, nothing sent. -/
def blank (c : Config) : Replicas where
  eng := fun n => .new { c with nodeID := n }
  sent := []
  acks := []
  transfers := []
  installs := []
  infos := []

-- ======== the wire

/-- The message the section consumes is on the wire. A catch-up never
targets its own node: the targets are the placement owners outside an
ISR the primary is in. -/
def backed (S : Replicas) (a : Act) : Bool :=
  let e := S.eng a.node
  match a.ev.input with
  | .receive msg _ => decide (⟨a.src, a.node, [msg]⟩ ∈ S.sent)
  | .receiveGroup msgs =>
    decide (⟨a.src, a.node, msgs.map Prod.fst⟩ ∈ S.sent)
  | .complete peer msgs (some ack) =>
    decide ((⟨a.node, peer, msgs⟩, ack) ∈ S.acks)
  | .growStart peer => decide (peer ≠ a.node)
  | .growHandshake (some info) => e.grow.any fun g =>
    decide (info = (S.eng g.peer).catchupInfo)
      || decide ((g.peer, info) ∈ S.infos)
  | .growAck (some ack) => e.grow.any fun g => S.acks.any fun x =>
    decide (x.1.src = a.node) && decide (x.1.dst = g.peer)
      && decide (x.2 = ack)
  | .growShipped (some ack) => e.grow.any fun g => S.installs.any fun x =>
    decide (x.1.src = a.node) && decide (x.1.dst = g.peer)
      && decide (x.2 = ack)
  | .snapshotFence E => S.transfers.any fun x =>
    decide (x.dst = a.node) && decide (x.snap.epoch = E)
  | .installSnapshot s _ =>
    decide (⟨a.src, a.node, s⟩ ∈ S.transfers) && decide (s.epoch ≤ e.epoch)
  | _ => true

/-- What a section ships: whatever the transport holds after it, and the
group of a backfill round. -/
def shipped (n : NodeID) (e : Engine) (ev : Event) (e' : Engine) :
    List Shipment :=
  e'.outbox.map (fun x => ⟨n, x.1, x.2⟩)
    ++ match ev.input, e.grow, e.growBackfill with
      | .growBackfill, some g, some (_, msgs) => [⟨n, g.peer, msgs⟩]
      | _, _, _ => []

/-- The ack of a receive section. -/
def answered (e : Engine) (a : Act) : List (Shipment × AckMsg) :=
  match a.ev.input with
  | .receive msg ok =>
    [(⟨a.src, a.node, [msg]⟩, (e.receiveLocked msg ok a.ev.now).2)]
  | .receiveGroup msgs =>
    [(⟨a.src, a.node, msgs.map Prod.fst⟩, (e.receiveGroup msgs a.ev.now).2)]
  | _ => []

/-- The snapshot a section takes. -/
def snapped (n : NodeID) (e : Engine) (ev : Event) : List Transfer :=
  match ev.input, e.grow with
  | .takeSnapshot ok, some g =>
    match e.takeSnapshot ok ev.now with
    | some (_, some s) => [⟨n, g.peer, s⟩]
    | _ => []
  | _, _ => []

/-- The answer to the final chunk of a transfer. -/
def installedAck (e : Engine) (a : Act) : List (Transfer × AckMsg) :=
  match a.ev.input with
  | .installSnapshot s out =>
    [(⟨a.src, a.node, s⟩, ⟨s.epoch, s.frontierSeq,
      !e.installAborts s && decide (out = .ok)⟩)]
  | _ => []

-- ======== the step

/-- Put one node's next engine state and its messages in place. -/
def after (S : Replicas) (a : Act) (e' : Engine) : Replicas where
  eng := fun n => if n = a.node then e' else S.eng n
  sent := S.sent ++ shipped a.node (S.eng a.node) a.ev e'
  acks := S.acks ++ answered (S.eng a.node) a
  transfers := S.transfers ++ snapped a.node (S.eng a.node) a.ev
  installs := S.installs ++ installedAck (S.eng a.node) a
  infos := S.infos ++ [(a.node, e'.catchupInfo)]

/-- One critical section of one node. -/
def step (S : Replicas) (a : Act) : Option Replicas :=
  if S.backed a then ((S.eng a.node).step a.ev).map (S.after a) else none

end Replicas

end Rostam.Cluster
