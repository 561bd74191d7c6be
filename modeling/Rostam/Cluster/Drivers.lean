/-
What the control-plane drivers decide: the failover ticker's promotions
(cluster/pb_failover.go), the shrink driver's removals
(cluster/pb_shrink.go) and the grow driver's re-add candidates
(cluster/pb_grow.go). The decisions are pure; the ticks that read for
them and submit what they decide are sections of the whole system.
-/
import Rostam.Cluster.MetaFsm
import Rostam.Lib.Word

namespace Rostam.Cluster

open Rostam.Lib Rostam.Pbisr

-- ======== failover

/-- What the failover ticker knows of one shard, on the leader's own
clock. -/
structure PbShardLiveness where
  shardID : Nat
  epoch : Nat
  primary : NodeID
  isr : List NodeID
  lastRenewNs : Int
  deriving Repr

/-- A decided failover. -/
structure PbPromotion where
  shardID : Nat
  newEpoch : Nat
  newPrimary : NodeID
  deriving DecidableEq, Repr

/-- One turn of the candidate loop: the presumed-dead primary and every
unverifiable member are passed over; the highest high-water wins, ties
going to the lowest id. -/
def candidateTurn (primary : NodeID) (highWater : NodeID → Nat × Bool)
    (best : NodeID × Nat) (m : NodeID) : NodeID × Nat :=
  if m = primary then best
  else
    let (hw, reachable) := highWater m
    if reachable = false then best
    else if best.1 = "" ∨ best.2 < hw ∨ (hw = best.2 ∧ m < best.1) then
      (m, hw)
    else best

/-- The promotion one shard gets. `none` for the resolver is the legacy
path: every candidate reachable at equal high-water. -/
def decidePBPromotion (s : PbShardLiveness) (nowNs failoverTimeout : Int)
    (highWater : Option (Nat → NodeID → Nat × Bool)) :
    Option PbPromotion :=
  if s.primary = "" then none
  else if int64 (nowNs - s.lastRenewNs) ≤ failoverTimeout then none
  else
    let hw := fun m => match highWater with
      | some f => f s.shardID m
      | none => (0, true)
    let best := (s.isr.foldl (candidateTurn s.primary hw) ("", 0)).1
    if best = "" then none
    else some ⟨s.shardID, (s.epoch + 1) % 2 ^ 64, best⟩

/-- `decidePBPromotions`. -/
def decidePBPromotions (shards : List PbShardLiveness)
    (nowNs failoverTimeout : Int)
    (highWater : Option (Nat → NodeID → Nat × Bool)) : List PbPromotion :=
  shards.filterMap fun s =>
    decidePBPromotion s nowNs failoverTimeout highWater

-- ======== shrink

/-- `decidePBShrink`: the ISR less its stalled members, never less its
primary and never below the floor. -/
def decidePBShrink (primary : NodeID) (isr stalled : List NodeID)
    (minISR : Nat) : Option (List NodeID) :=
  if stalled.isEmpty ∨ isr.isEmpty then none
  else
    let drop := stalled.filter fun s => s ≠ primary
    let newISR := isr.filter fun m => m ∉ drop
    if newISR.length = isr.length then none
    else if newISR.length < minISR then none
    else some newISR

/-- `isStrictSubset`: a pure narrowing. -/
def isStrictSubset (sub super : List NodeID) : Bool :=
  decide (sub.length < super.length) && sub.all fun s => s ∈ super

-- ======== grow

/-- `decidePBGrow`: the placement owners outside the ISR, in placement
order. -/
def decidePBGrow (placement isr : List NodeID) : List NodeID :=
  placement.filter fun owner => owner ∉ isr

/-- `isrSig` equality: the same epoch and the same members. -/
def sameSig (epoch : Nat) (isr : List NodeID) (epoch' : Nat)
    (isr' : List NodeID) : Bool :=
  decide (epoch = epoch') && isr.isPerm isr'

end Rostam.Cluster
