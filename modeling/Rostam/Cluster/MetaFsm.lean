/-
The committed control state of one shard (cluster/meta_fsm.go).

The meta log is the list of entries the meta-Raft group has committed
for the shard; a node's MetaFSM has applied a prefix of it. Of the
catalog only the shard's epoch, primary and ISR are kept, with the
durability floor `minISR`; entries of other kinds touch none of them.

`isrOf` reads the history of those states: the ISR an epoch has, or last
had. `removesAt` and `addsAt` say which entry moved a member.
-/
import Rostam.Pbisr.Step

namespace Rostam.Cluster

open Rostam.Lib Rostam.Pbisr

/-- The shard's entry of the MetaFSM state. -/
structure Shard where
  epoch : Nat
  primary : NodeID
  isr : List NodeID
  minISR : Nat
  deriving DecidableEq, Repr

/-- A committed entry of the meta log. `setShardEpoch` carries an ISR
only as a seed. -/
inductive MetaOp where
  | setShardEpoch (epoch : Nat) (primary : NodeID) (isr : List NodeID)
  | setShardISR (epoch : Nat) (isr : List NodeID)
  deriving DecidableEq, Repr

/-- `seedISRForEpoch`: the carried ISR when it contains the primary,
otherwise the promotion reset. -/
def seedISRForEpoch (primary : NodeID) (isr : List NodeID) : List NodeID :=
  if primary ∈ isr then isr else [primary]

namespace Shard

/-- No entry yet. -/
def unseeded (minISR : Nat) : Shard := ⟨0, "", [], minISR⟩

/-- `MetaFSM.Apply`. A stale epoch is a no-op for both entries; an ISR
below the floor is refused. -/
def apply (st : Shard) : MetaOp → Shard
  | .setShardEpoch epoch primary isr =>
    if epoch ≤ st.epoch then st
    else { st with
      epoch := epoch
      primary := primary
      isr := seedISRForEpoch primary isr }
  | .setShardISR epoch isr =>
    if epoch ≠ st.epoch then st
    else if isr.length = 0 ∨ (0 < st.minISR ∧ isr.length < st.minISR)
    then st
    else { st with isr := isr }

end Shard

/-- The committed entries of one shard, oldest first. -/
abbrev MetaLog := List MetaOp

namespace MetaLog

/-- The state after applying the whole log. -/
def state (minISR : Nat) (log : MetaLog) : Shard :=
  log.foldl Shard.apply (.unseeded minISR)

/-- The ISR of epoch `E`: the current one, or the last it had. -/
def isrOf (minISR : Nat) (log : MetaLog) (E : Nat) : List NodeID :=
  (log.foldl (fun (x : Shard × (Nat → List NodeID)) op =>
    let st := x.1.apply op
    (st, fun E => if E = st.epoch then st.isr else x.2 E))
    (.unseeded minISR, fun _ => [])).2 E

/-- The entry at `k` took `m` out of the ISR. -/
def removesAt (minISR : Nat) (log : MetaLog) (k : Nat) (m : NodeID) :
    Bool :=
  match log[k]? with
  | some (.setShardISR _ _) =>
    decide (m ∈ (state minISR (log.take k)).isr)
      && decide (m ∉ (state minISR (log.take (k + 1))).isr)
  | _ => false

/-- The entry at `k` put `m` into the ISR of the epoch it found. -/
def addsAt (minISR : Nat) (log : MetaLog) (k : Nat) (m : NodeID) : Bool :=
  match log[k]? with
  | some (.setShardISR _ _) =>
    decide (m ∉ (state minISR (log.take k)).isr)
      && decide (m ∈ (state minISR (log.take (k + 1))).isr)
  | _ => false

end MetaLog

end Rostam.Cluster
