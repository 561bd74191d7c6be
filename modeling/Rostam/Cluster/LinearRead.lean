/-
Linearizable reads in primary-backup mode (shard/pb_replicator.go,
Store.verifyLeaderAndCatchUp).

The barrier asks whether this node is the named primary with a lease that
has not run out, compares the FSM's own applied index with `Committed`,
and if that lags asks the first question again. Behind it the handler
runs on the local state as it is then: what the engine has applied, with
whatever its sections have done in between.
-/
import Rostam.Cluster.System
import Rostam.Lib.Trace

namespace Rostam.Cluster

open Rostam.Lib Rostam.Pbisr

namespace System

/-- `pbReplicator.VerifyLeader`. -/
def verifyLeader (S : System) (n : NodeID) (now : Nat) : Bool :=
  decide ((S.viewOf n).primary = n) && (S.reps.eng n).leaseValid now

/-- `pbReplicator.Barrier`. -/
def barrier (S : System) (n : NodeID) (now : Nat) : Bool :=
  S.verifyLeader n now

/-- `pbReplicator.CommitIndex`, and `AppliedIndex` too. -/
def commitIndex (S : System) (n : NodeID) : Nat := (S.reps.eng n).pl.committed

end System

/-- `Store.Call` of a read-only operation at node `n` with Linearizable
consistency: its barrier begins in `S` and lets it pass, and its handler
finds `state` in `S'`. `applied` is what the FSM gives for its index; the
sections between its looks at the engine all meet `K`. -/
def Served (K : System → Label → Prop) (n : NodeID) (S S' : System)
    (state : List Data) : Prop :=
  ∃ (now now' applied : Nat) (S₁ S₂ : System) (tr₁ tr₂ tr₃ : List Label),
    S.verifyLeader n now = true
    ∧ Reach System.step K S tr₁ S₁
    ∧ Reach System.step K S₁ tr₂ S₂
    ∧ (S₁.commitIndex n ≤ applied ∨ S₂.barrier n now' = true)
    ∧ Reach System.step K S₂ tr₃ S'
    ∧ state = (S'.reps.eng n).fsm

end Rostam.Cluster
