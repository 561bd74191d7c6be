/-
One shard replica as its process runs it: the engine, the snapshot store
over the restore fence (shard/pb_snapshot_store.go), and restarts that
re-read what is durable (shard/store.go).

# An install attempt

`installSnapshot` raises the fence off the engine's locks, so attempts
overlap: `pending` holds the transfers whose `BeginInstall` returned and
that have not entered the locked section yet. The section either gives
up before the FSM is touched — the fence is then lowered after the locks
are released, which is a step of its own, counted by `aborting` — or runs
`InstallFSM` and `CommitInstall` under the locks.

# A restart

A process can stop between any two steps. Stopping inside `InstallFSM`
is that call failing and then stopping. With a data directory the FSM
survives as it is, the frontier is whatever was last stamped, and the
poison latch is seeded from the fence; without one the node comes back
empty.

`history` is a specification field: the state of the last completely
installed snapshot, or the node's first state, extended by the writes
applied since.
-/
import Rostam.Shard.Fence
import Rostam.Pbisr.Step

namespace Rostam.Shard

open Rostam.Lib Rostam.Pbisr

/-- The replica of one shard on one node. -/
structure Node where
  cfg : Config
  eng : Engine
  fence : RestoreFence
  pending : List Snapshot
  aborting : Nat
  history : List Data

/-- A first start over a state that no install has touched. -/
def Node.boot (cfg : Config) (dir : Bool) (seq epoch : Nat)
    (fsm : List Data) : Node where
  cfg := cfg
  eng := Engine.restored cfg false seq epoch fsm
  fence := ⟨dir, none⟩
  pending := []
  aborting := 0
  history := fsm

/-- How the store calls of a locked section went: `InstallFSM` failed
and left anything, or `CommitInstall` ran, its fence call with this
outcome. -/
inductive StoreRun where
  | fsmErr (garbage : List Data)
  | commit (out : LowerOutcome)
  deriving DecidableEq, Repr

/-- The steps of a replica. -/
inductive NodeInput where
  | run (ev : Event)
  | beginInstall (s : Snapshot) (out : RaiseOutcome)
  | install (s : Snapshot) (out : StoreRun)
  | abortInstall (out : LowerOutcome)
  | restart (seq epoch : Nat) (readable : Bool)
  deriving DecidableEq, Repr

namespace Node

/-- An engine section other than the install's; what it appends to the
FSM extends the history. -/
def runEngine (n : Node) (ev : Event) : Option Node :=
  match ev.input with
  | .installSnapshot .. => none
  | _ => (n.eng.step ev).map fun e' =>
    { n with
      eng := e'
      history := n.history ++ e'.fsm.drop n.eng.fsm.length }

/-- `BeginInstall`: on an error the attempt is over. -/
def beginInstall (n : Node) (s : Snapshot) (out : RaiseOutcome) : Node :=
  let r := n.fence.raise s.frontierSeq s.frontierEpoch out
  if r.2 then { n with fence := r.1, pending := n.pending ++ [s] }
  else { n with fence := r.1 }

/-- The locked section of one attempt. -/
def install (n : Node) (s : Snapshot) (out : StoreRun) : Option Node :=
  if s ∈ n.pending ∧ n.eng.stage = .idle then
    let n' := { n with pending := n.pending.erase s }
    if n.eng.installAborts s then
      some { n' with aborting := n.aborting + 1 }
    else
      match out with
      | .fsmErr g =>
        some { n' with eng := n.eng.installSnapshot s (.fsmErr g) }
      | .commit low =>
        let r := n.fence.lower low
        some { n' with
          fence := r.1
          eng := n.eng.installSnapshot s (if r.2 then .ok else .commitErr)
          history := s.blob }
  else none

/-- `AbortInstall`: its error is dropped. -/
def abortInstall (n : Node) (out : LowerOutcome) : Option Node :=
  match n.aborting with
  | 0 => none
  | k + 1 =>
    some { n with fence := (n.fence.lower out).1, aborting := k }

/-- The process stops and starts again. -/
def restart (n : Node) (seq epoch : Nat) (readable : Bool) : Node :=
  if n.fence.dir then
    { n with
      eng := Engine.restored n.cfg (n.fence.raised readable).2.2 seq epoch
        n.eng.fsm
      pending := []
      aborting := 0 }
  else
    { n with
      eng := Engine.restored n.cfg (n.fence.raised readable).2.2 0 0 []
      pending := []
      aborting := 0
      history := [] }

/-- One step. -/
def step (n : Node) : NodeInput → Option Node
  | .run ev => n.runEngine ev
  | .beginInstall s out => some (n.beginInstall s out)
  | .install s out => n.install s out
  | .abortInstall out => n.abortInstall out
  | .restart seq epoch readable => some (n.restart seq epoch readable)

end Node

end Rostam.Shard
