/-
One engine as a labelled step function: a label per critical section.

A section that takes `writeMu` is enabled only while the proposer holds
none of it (`stage = idle`); a section under `e.mu` alone is enabled at
any time. What a section reads from outside the engine — the clock, the
control plane, the Applier's and the store's outcomes, the peers'
answers — is data of its label.
-/
import Rostam.Lib.Trace
import Rostam.Pbisr.Backup
import Rostam.Pbisr.Grow

namespace Rostam.Pbisr

open Rostam.Lib

/-- The critical sections of one engine. -/
inductive Input where
  | fence (primary : NodeID) (isr : List NodeID) (minISR : Nat)
      (data : Data)
  | applyLocal (ok : Bool)
  | register
  | submitNext (inlined : Bool)
  | submitDone
  | awaitDone (i : Nat)
  | ctxDone (i : Nat)
  | senderTake (peer : NodeID) (n : Nat)
  | complete (peer : NodeID) (msgs : List ReplicateMsg)
      (res : Option AckMsg)
  | adoptEpoch (E : Nat)
  | grantLease (E expiry : Nat)
  | promote (E expiry : Nat)
  | receive (msg : ReplicateMsg) (ok : Bool)
  | receiveGroup (msgs : List (ReplicateMsg × Bool))
  | shrinkISR (E : Nat) (newISR : List NodeID)
  | growISR (E : Nat) (newISR : List NodeID)
  | growStart (peer : NodeID)
  | growHandshake (res : Option CatchupInfoMsg)
  | growCheck
  | growBackfill
  | growAck (res : Option AckMsg)
  | flip
  | growFallback
  | takeSnapshot (ok : Bool)
  | growShipped (res : Option AckMsg)
  | growCancel
  | abortLearnerCatchup (peer : NodeID)
  | reclaimOrphanLearners
  | teardownLearners
  | snapshotFence (E : Nat)
  | installSnapshot (s : Snapshot) (out : Engine.InstallOutcome)
  | shutdown
  deriving DecidableEq, Repr

/-- A label: the section and the clock reading it takes. -/
structure Event where
  now : Nat
  input : Input
  deriving DecidableEq, Repr

namespace Engine

/-- Run a `writeMu` section that always completes. -/
def locked (e : Engine) (e' : Engine) : Option Engine :=
  if e.stage = .idle then some e' else none

/-- One critical section. -/
def step (e : Engine) (ev : Event) : Option Engine :=
  match ev.input with
  | .fence primary isr minISR data =>
    e.locked (e.fence primary isr minISR data ev.now)
  | .applyLocal ok => e.applyLocal ok
  | .register => e.register ev.now
  | .submitNext inlined => e.submitNext inlined
  | .submitDone => e.submitDone ev.now
  | .awaitDone i => e.awaitDone i
  | .ctxDone i => e.ctxDone i
  | .senderTake peer n => e.senderTake peer n
  | .complete peer msgs res => e.complete peer msgs res ev.now
  | .adoptEpoch E => some (e.adoptEpoch E ev.now)
  | .grantLease E expiry => some (e.grantLease E expiry ev.now)
  | .promote E expiry => some (e.promote E expiry ev.now)
  | .receive msg ok => some (e.receiveLocked msg ok ev.now).1
  | .receiveGroup msgs => some (e.receiveGroup msgs ev.now).1
  | .shrinkISR E newISR => e.locked (e.shrinkISR E newISR ev.now)
  | .growISR E newISR => some (e.growISR E newISR)
  | .growStart peer => e.growStart peer
  | .growHandshake res => e.growHandshake res
  | .growCheck => e.growCheck
  | .growBackfill => e.growBackfill.map Prod.fst
  | .growAck res => e.growAck res
  | .flip => e.flipLearner ev.now
  | .growFallback => e.growFallback
  | .takeSnapshot ok => (e.takeSnapshot ok ev.now).map Prod.fst
  | .growShipped res => e.growShipped res
  | .growCancel => some e.growEnd
  | .abortLearnerCatchup peer => e.locked (e.abortLearnerCatchup peer)
  | .reclaimOrphanLearners => e.locked e.reclaimOrphanLearners
  | .teardownLearners => e.locked e.teardownLearners
  | .snapshotFence E => some (e.snapshotFence E ev.now)
  | .installSnapshot s out => e.locked (e.installSnapshot s out)
  | .shutdown => e.locked { e with closed := true }

end Engine

end Rostam.Pbisr
